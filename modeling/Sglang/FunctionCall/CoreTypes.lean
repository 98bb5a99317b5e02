import Mathlib.Algebra.Group.Defs
import Sglang.Lib.JsonText
import Sglang.Lib.Markers

/-!
# Tools, Calls and Results

The types that the tool-call detectors share (`function_call/core_types.py`, `Tool` and `Function`
of `entrypoints/openai/protocol.py`), and the Python functions that they take as given.
-/

namespace Sglang.FunctionCall

open List
open Lib

/-! ## Section 1: Schemas -/

/-- `value[key]` of a dictionary. -/
def getItem : Json → List Char → Option Json
  | .obj members, key => (members.find? fun m => decide (m.1 = Json.codes key)).map Prod.snd
  | _, _ => none

/-- `key in value`; `none` is a `TypeError`. -/
def contains : Json → List Char → Option Bool
  | .obj members, key => some (members.any fun m => decide (m.1 = Json.codes key))
  | .arr items, key => some (items.any fun
      | .str s => decide (s = Json.codes key)
      | _ => false)
  | .str s, key => some (find (Json.codes key) s).isSome
  | _, _ => none

/-- `Function`, with `parameters = None` as `null`. -/
structure Function where
  name : List Char
  parameters : Json

structure Tool where
  type : List Char
  function : Function

/-! ## Section 2: Results -/

structure ToolCallItem where
  toolIndex : Int
  name : Option (List Char)
  parameters : List Char
deriving DecidableEq

@[ext]
structure StreamingParseResult where
  normalText : List Char
  calls : List ToolCallItem
deriving DecidableEq

namespace StreamingParseResult

/-- One result after the other. -/
instance : Add StreamingParseResult where
  add r s := ⟨r.normalText ++ s.normalText, r.calls ++ s.calls⟩

instance : Zero StreamingParseResult where
  zero := ⟨[], []⟩

@[simp] theorem add_def (r s : StreamingParseResult) :
    r + s = ⟨r.normalText ++ s.normalText, r.calls ++ s.calls⟩ := rfl

@[simp] theorem zero_def : (0 : StreamingParseResult) = ⟨[], []⟩ := rfl

instance : AddMonoid StreamingParseResult where
  add_assoc r s t := by simp
  zero_add r := by simp
  add_zero r := by simp
  nsmul := nsmulRec

end StreamingParseResult

/-! ## Section 3: The items of calls -/

def numbered (i : Nat) (calls : List (List Char × List Char)) : List ToolCallItem :=
  (calls.zipIdx i).map fun c => ⟨c.2, some c.1.1, c.1.2⟩

theorem numbered_injective {i : Nat} {calls calls' : List (List Char × List Char)}
    (h : numbered i calls = numbered i calls') : calls = calls' := by
  have hback : ∀ (calls : List (List Char × List Char)) (i : Nat), (numbered i calls).filterMap
      (fun item => item.name.map fun name => (name, item.parameters)) = calls := by
    intro calls
    induction calls with
    | nil => exact fun i => rfl
    | cons call calls ih =>
      intro i
      rw [numbered, zipIdx_cons, map_cons, filterMap_cons]
      exact congrArg _ (ih (i + 1))
  rw [← hback calls i, h, hback]

/-- The items of a list of calls: the name of each with some of its arguments, then the rest. -/
def Sends : Nat → List (List Char × List Char) → List ToolCallItem → Prop
  | _, [], items => items = []
  | i, (name, args) :: calls, items => ∃ (first : List Char)
      (fragments : List (List Char)) (rest : List ToolCallItem),
      items = ⟨i, some name, first⟩ :: (fragments.map fun a => ⟨i, none, a⟩) ++ rest ∧
      first ++ fragments.flatten = args ∧ Sends (i + 1) calls rest

theorem Sends.length {calls : List (List Char × List Char)} : ∀ {i : Nat}
    {items : List ToolCallItem}, Sends i calls items →
    (items.filter fun item => item.name.isSome).length = calls.length := by
  induction calls with
  | nil =>
    rintro i items h
    rw [show items = [] from h]
    rfl
  | cons call calls ih =>
    rintro i items ⟨first, fragments, rest, rfl, _, hrest⟩
    have hfragments : (fragments.map fun a => (⟨i, none, a⟩ : ToolCallItem)).filter
        (fun item => item.name.isSome) = [] := by
      rw [filter_eq_nil_iff]
      intro item hitem
      obtain ⟨a, _, rfl⟩ := mem_map.mp hitem
      simp
    rw [cons_append, filter_cons_of_pos rfl, filter_append, hfragments,
      nil_append, length_cons, ih hrest, length_cons]

theorem Sends.infix_args {calls : List (List Char × List Char)} : ∀ {i : Nat}
    {items : List ToolCallItem}, Sends i calls items →
    ∀ item ∈ items, ∃ call ∈ calls, item.parameters <:+: call.2 := by
  induction calls with
  | nil =>
    intro i items h item hitem
    rw [show items = [] from h] at hitem
    exact absurd hitem not_mem_nil
  | cons call calls ih =>
    rintro i items ⟨first, fragments, rest, rfl, hargs, hrest⟩ item hitem
    rw [cons_append, mem_cons, mem_append] at hitem
    rcases hitem with rfl | hitem | hitem
    · exact ⟨call, mem_cons_self .., ⟨[], fragments.flatten, hargs⟩⟩
    · obtain ⟨a, ha, rfl⟩ := mem_map.mp hitem
      refine ⟨call, mem_cons_self .., ?_⟩
      rw [← hargs]
      exact (infix_of_mem_flatten ha).trans (suffix_append _ _).isInfix
    · obtain ⟨call', hcall', hin⟩ := ih hrest item hitem
      exact ⟨call', mem_cons_of_mem _ hcall', hin⟩

/-! ## Section 4: Given functions -/

/-- The Python functions that the detectors call, over the Python values `V`. Where they raise, they
give `none`. -/
structure PyLib (V : Type) where
  none : V
  str : List Char → V
  bool : Bool → V
  /-- `str.lower` and `str.strip` -/
  lower : List Char → List Char
  strip : List Char → List Char
  /-- `str(value)` of a decoded value -/
  showJson : Json → List Char
  int : List Char → Option V
  float : List Char → Option V
  /-- `value.is_integer()` and `int(value)` of a float -/
  isInteger : V → Bool
  floatToInt : V → V
  loads : List Char → Option V
  literalEval : List Char → Option V
  /-- `json.dumps(value, ensure_ascii=False)` -/
  dumps : V → Option (List Char)
  /-- `json.dumps` of a string -/
  dumpsAscii : List Char → List Char

end Sglang.FunctionCall

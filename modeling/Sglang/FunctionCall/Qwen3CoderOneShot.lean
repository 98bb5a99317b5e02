import Sglang.FunctionCall.Qwen3Coder
import Sglang.Lib.JsonDumps

/-!
# The One-Shot Parser of Qwen3 Coder

Model of `Qwen3CoderDetector.detect_and_parse`: three nested searches with regular expressions, for
the blocks of calls, for the functions in a block and for the parameters of a function.

## Conventions

- Each search takes the first place where its expression matches, and there the shortest match.
- A dictionary is a list of its items in the order in which the keys came first.
- `none` is an exception; then the whole text is normal text.
-/

namespace Sglang.FunctionCall.Qwen3Coder

open List Option
open Lib

/-! ## Section 1: The three searches -/

theorem cut_length {p t a b : List Char} (hp : p ≠ []) (h : cut p t = some (a, b)) :
    b.length < t.length := by
  have hlen := congrArg List.length (cut_eq h)
  have hpos := length_pos_of_ne_nil hp
  simp only [length_append] at hlen
  omega

/-- `tool_call_regex.findall`. -/
def findToolCalls (s : List Char) : List (List Char) :=
  match _h : cut toolCallStartToken s with
  | none => []
  | some (_, r) =>
    match _h' : cut toolCallEndToken r with
    | none => []
    | some (content, r') => content :: findToolCalls r'
termination_by s.length
decreasing_by exact (cut_length (by decide) _h').trans (cut_length (by decide) _h)

/-- `tool_call_function_regex.findall`, with the group that matched. -/
def findFunctions (s : List Char) : List (List Char) :=
  match _h : cut toolCallPrefix s with
  | none => []
  | some (_, r) =>
    match _h' : cut functionEndToken r with
    -- the second alternative takes the rest
    | none => [r]
    | some (body, r') => body :: findFunctions r'
termination_by s.length
decreasing_by exact (cut_length (by decide) _h').trans (cut_length (by decide) _h)

/-- The text up to what ends a parameter, and what follows. `$` also matches before a newline at the
end. -/
def spanParameter : List Char → List Char × List Char
  | [] => ([], [])
  | c :: s =>
    if parameterEndToken <+: c :: s then ([], (c :: s).drop parameterEndToken.length)
    else if parameterPrefix <+: c :: s ∨ functionEndToken <+: c :: s ∨
      c :: s = ['\n'] then ([], c :: s)
    else (c :: (spanParameter s).1, (spanParameter s).2)

theorem spanParameter_length (s : List Char) : (spanParameter s).2.length ≤ s.length := by
  induction s with
  | nil => exact le_rfl
  | cons c s ih =>
    unfold spanParameter
    split
    · rw [length_drop]
      omega
    · split
      · exact le_rfl
      · exact ih.trans (Nat.le_succ _)

/-- `tool_call_parameter_regex.findall`. -/
def findParameters (s : List Char) : List (List Char) :=
  match _h : cut parameterPrefix s with
  | none => []
  | some (_, r) => (spanParameter r).1 :: findParameters (spanParameter r).2
termination_by s.length
decreasing_by exact (spanParameter_length r).trans_lt (cut_length (by decide) _h)

/-! ## Section 2: Calls -/

section Parser

variable {V : Type} (lib : PyLib V) (tools : Option (List Tool))

/-- `json.dumps(params, ensure_ascii=False)`. -/
def dumpsDict (params : List (List Char × V)) : Option (List Char) := do
  let members ← params.mapM fun item => do
    let text ← lib.dumps item.2
    some (Json.dumpsString false item.1 ++ ": ".toList ++ text)
  some ('\x7b' :: Json.membersText members)

def addParameter (paramConfig : Json) (params : List (List Char × V)) (pMatch : List Char) :
    Option (List (List Char × V)) :=
  match cut ">".toList pMatch with
  | none => some params
  | some (pName, pVal) => do
    let value ← convertParamValue lib (cleanup pVal) pName paramConfig
    some (setItem params pName value)

def parseParameters (paramConfig : Json) (paramsStr : List Char) : Option (List (List Char × V)) :=
  (findParameters paramsStr).foldlM (addParameter lib paramConfig) []

/-- The calls of the functions that were found. -/
def parseFunctions : Nat → List (List Char) → Option (List ToolCallItem)
  | _, [] => some []
  | toolIdx, funcBody :: rest =>
    match cut ">".toList funcBody with
    | none => parseFunctions toolIdx rest
    | some (funcName, paramsStr) => do
      let params ← parseParameters lib (getArgumentsConfig (some funcName) tools) paramsStr
      let parameters ← dumpsDict lib params
      let calls ← parseFunctions (toolIdx + 1) rest
      some (⟨toolIdx, some funcName, parameters⟩ :: calls)

/-- The blocks in which functions are looked for. -/
def rawToolCalls (text : List Char) : List (List Char) :=
  let raw := findToolCalls text
  if raw = [] ∧ (find toolCallPrefix text).isSome then [text] else raw

def detectAndParse (text : List Char) : StreamingParseResult :=
  match find toolCallStartToken text with
  | none => ⟨text, []⟩
  | some startIdx =>
    match parseFunctions lib tools 0 ((rawToolCalls text).flatMap findFunctions) with
    | none => ⟨text, []⟩
    | some calls => ⟨text.take startIdx, calls⟩

end Parser

/-! ## Section 3: What the searches find -/

theorem not_infix_of_cut {p t a b : List Char} (hp : p ≠ []) (h : cut p t = some (a, b)) :
    ¬ p <:+: a := by
  rintro ⟨x, y, hxy⟩
  have hno := cut_first h x (p ++ y) (by rw [← hxy, append_assoc])
    (append_ne_nil_of_left_ne_nil hp y)
  apply hno
  rw [append_assoc, append_assoc]
  exact prefix_append _ _

theorem infix_of_cut {p t a b : List Char} (h : cut p t = some (a, b)) : a <:+: t ∧ b <:+: t := by
  rw [cut_eq h]
  refine ⟨⟨[], p ++ b, by simp⟩, (suffix_append _ _).isInfix⟩

theorem not_infix_findToolCalls (s : List Char) : ∀ content ∈ findToolCalls s,
    ¬ toolCallEndToken <:+: content := by
  fun_induction findToolCalls s with
  | case1 => simp
  | case2 => simp
  | case3 s a r h content r' h' ih =>
    intro content' hmem
    rcases mem_cons.mp hmem with rfl | hmem
    · exact not_infix_of_cut (by decide) h'
    · exact ih content' hmem

theorem infix_findFunctions (s : List Char) : ∀ body ∈ findFunctions s,
    body <:+: s ∧ ¬ functionEndToken <:+: body := by
  fun_induction findFunctions s with
  | case1 => simp
  | case2 s a r h h' =>
    intro body hmem
    rw [mem_singleton.mp hmem]
    exact ⟨(infix_of_cut h).2, cut_eq_none_iff.mp h'⟩
  | case3 s a r h body r' h' ih =>
    intro body' hmem
    rcases mem_cons.mp hmem with rfl | hmem
    · exact ⟨(infix_of_cut h').1.trans (infix_of_cut h).2, not_infix_of_cut (by decide) h'⟩
    · obtain ⟨hin, hnot⟩ := ih body' hmem
      exact ⟨hin.trans ((infix_of_cut h').2.trans (infix_of_cut h).2), hnot⟩

def parameterEnds : List (List Char) := [parameterEndToken, parameterPrefix, functionEndToken]

theorem spanParameter_spec (s : List Char) : (spanParameter s).1 <:+: s ∧
    (spanParameter s).2 <:+: s ∧ ∀ p ∈ parameterEnds, ¬ p <:+: (spanParameter s).1 := by
  have hnil : ∀ p ∈ parameterEnds, ¬ p <:+: [] := by decide
  suffices h : (spanParameter s).1 <+: s ∧ (spanParameter s).2 <:+: s ∧
      ∀ p ∈ parameterEnds, ¬ p <:+: (spanParameter s).1 from ⟨h.1.isInfix, h.2⟩
  induction s with
  | nil => exact ⟨prefix_rfl, infix_rfl, hnil⟩
  | cons c s ih =>
    unfold spanParameter
    split
    · exact ⟨List.nil_prefix, (drop_suffix _ _).isInfix, hnil⟩
    · next hend =>
      split
      · exact ⟨List.nil_prefix, infix_rfl, hnil⟩
      · next hother =>
        obtain ⟨hpre, hrest, hnot⟩ := ih
        refine ⟨cons_prefix_cons.mpr ⟨rfl, hpre⟩, hrest.trans (suffix_cons c s).isInfix, ?_⟩
        intro p hp hin
        rcases infix_cons_iff.mp hin with hin | hin
        · -- the tag would have ended the parameter here
          have hstart : p <+: c :: s := hin.trans (cons_prefix_cons.mpr ⟨rfl, hpre⟩)
          simp only [parameterEnds, mem_cons, not_mem_nil, or_false] at hp
          rcases hp with rfl | rfl | rfl
          · exact hend hstart
          · exact hother (.inl hstart)
          · exact hother (.inr (.inl hstart))
        · exact hnot p hp hin

theorem infix_findParameters (s : List Char) : ∀ m ∈ findParameters s,
    m <:+: s ∧ ∀ p ∈ parameterEnds, ¬ p <:+: m := by
  fun_induction findParameters s with
  | case1 => simp
  | case2 s a r h ih =>
    obtain ⟨hin, hrest, hnot⟩ := spanParameter_spec r
    intro m hmem
    rcases mem_cons.mp hmem with rfl | hmem
    · exact ⟨hin.trans (infix_of_cut h).2, hnot⟩
    · obtain ⟨hin', hnot'⟩ := ih m hmem
      exact ⟨hin'.trans (hrest.trans (infix_of_cut h).2), hnot'⟩

/-! ## Section 4: Names and arguments of the calls -/

/-- What is relied on of the given functions: `json.dumps` writes strings as JSON does and gives
JSON texts, and the type `string` is in its normal form. -/
structure Lawful {V : Type} (lib : PyLib V) : Prop where
  dumps_str : ∀ s, lib.dumps (lib.str s) = some (Json.dumpsString false s)
  dumps_loads : ∀ {v text}, lib.dumps v = some text → ∃ j, Json.loads text = some j
  dumpsAscii_eq : ∀ s, lib.dumpsAscii s = Json.dumpsString true s
  type_string : lib.lower (lib.strip (lib.showJson (.str (Json.codes "string".toList)))) =
    "string".toList

section Calls

variable {V : Type} {lib : PyLib V} {tools : Option (List Tool)}

theorem mem_setItem {params : List (List Char × V)} {key : List Char} {value : V}
    {item : List Char × V} (h : item ∈ setItem params key value) :
    item.1 = key ∨ item.1 ∈ params.map Prod.fst := by
  unfold setItem at h
  split at h
  · obtain ⟨item', hitem', rfl⟩ := List.mem_map.mp h
    split
    · exact .inl rfl
    · exact .inr (List.mem_map.mpr ⟨item', hitem', rfl⟩)
  · rcases mem_append.mp h with h | h
    · exact .inr (List.mem_map.mpr ⟨item, h, rfl⟩)
    · rw [mem_singleton.mp h]
      exact .inl rfl

theorem mem_foldlM_addParameter {paramConfig : Json} (matches' : List (List Char)) :
    ∀ {params params' : List (List Char × V)},
    matches'.foldlM (addParameter lib paramConfig) params = some params' → ∀ item ∈ params',
    item.1 ∈ params.map Prod.fst ∨ ∃ m ∈ matches', ∃ v, cut ">".toList m = some (item.1, v) := by
  induction matches' with
  | nil =>
    intro params params' h item hitem
    cases h
    exact .inl (List.mem_map.mpr ⟨item, hitem, rfl⟩)
  | cons m matches' ih =>
    intro params params' h item hitem
    rw [foldlM_cons, bind_eq_bind, bind_eq_some_iff] at h
    obtain ⟨next, hnext, hrest⟩ := h
    rcases ih hrest item hitem with hin | ⟨m', hm', v, hv⟩
    · unfold addParameter at hnext
      split at hnext
      · cases hnext
        exact .inl hin
      · next pName pVal hcut =>
        simp only [bind_eq_bind, bind_eq_some_iff, Option.some.injEq] at hnext
        obtain ⟨value, _, rfl⟩ := hnext
        obtain ⟨item', hitem', hkey⟩ := List.mem_map.mp hin
        rcases mem_setItem hitem' with heq | hold
        · refine .inr ⟨m, mem_cons_self .., pVal, ?_⟩
          rw [hcut, ← hkey, heq]
        · rw [← hkey]
          exact .inl hold
    · exact .inr ⟨m', mem_cons_of_mem _ hm', v, hv⟩

theorem mem_parseParameters {paramConfig : Json} {paramsStr : List Char}
    {params : List (List Char × V)} (h : parseParameters lib paramConfig paramsStr = some params) :
    ∀ item ∈ params, ∃ m ∈ findParameters paramsStr, ∃ v, cut ">".toList m = some (item.1, v) := by
  intro item hitem
  rcases mem_foldlM_addParameter _ h item hitem with hin | hex
  · exact absurd hin not_mem_nil
  · exact hex

theorem dumpsDict_members (hlib : Lawful lib) {params : List (List Char × V)} {text : List Char}
    (h : dumpsDict lib params = some text) : ∃ ms : List Json.Member,
    text = '\x7b' :: Json.membersText (ms.map Json.Member.render) ∧
      ms.map Json.Member.key = params.map Prod.fst := by
  unfold dumpsDict at h
  rw [bind_eq_bind, bind_eq_some_iff] at h
  obtain ⟨members, hmembers, heq⟩ := h
  cases heq
  suffices hex : ∃ ms : List Json.Member, members = ms.map Json.Member.render ∧
      ms.map Json.Member.key = params.map Prod.fst by
    obtain ⟨ms, rfl, hkeys⟩ := hex
    exact ⟨ms, rfl, hkeys⟩
  induction params generalizing members with
  | nil =>
    cases hmembers
    exact ⟨[], rfl, rfl⟩
  | cons item params ih =>
    simp only [mapM_cons, bind_eq_bind, bind_eq_some_iff, Option.pure_def,
      Option.some.injEq] at hmembers
    obtain ⟨member, ⟨text, htext, rfl⟩, rest, hrest, rfl⟩ := hmembers
    obtain ⟨ms, rfl, hkeys⟩ := ih rest hrest
    obtain ⟨j, hj⟩ := hlib.dumps_loads htext
    exact ⟨⟨false, item.1, text, j, hj⟩ :: ms, rfl, by rw [map_cons, hkeys]; rfl⟩

theorem parseFunctions_cases (bodies : List (List Char)) : ∀ {i : Nat} {items : List ToolCallItem},
    parseFunctions lib tools i bodies = some items → ∃ calls, items = numbered i calls ∧
      ∀ call ∈ calls, ∃ body ∈ bodies, ∃ paramsStr params,
        cut ">".toList body = some (call.1, paramsStr) ∧
        parseParameters lib (getArgumentsConfig (some call.1) tools) paramsStr = some params ∧
        dumpsDict lib params = some call.2 := by
  induction bodies with
  | nil =>
    intro i items h
    cases h
    exact ⟨[], rfl, by simp⟩
  | cons body bodies ih =>
    intro i items h
    unfold parseFunctions at h
    split at h
    · obtain ⟨calls, rfl, hcalls⟩ := ih h
      refine ⟨calls, rfl, fun call hcall => ?_⟩
      obtain ⟨body', hbody', hrest⟩ := hcalls call hcall
      exact ⟨body', mem_cons_of_mem _ hbody', hrest⟩
    · next funcName paramsStr hcut =>
      simp only [bind_eq_bind, bind_eq_some_iff, Option.some.injEq] at h
      obtain ⟨params, hparams, parameters, hdumps, rest, hrest, rfl⟩ := h
      obtain ⟨calls, rfl, hcalls⟩ := ih hrest
      refine ⟨(funcName, parameters) :: calls, by simp [numbered, zipIdx_cons], ?_⟩
      intro call hcall
      rcases mem_cons.mp hcall with rfl | hcall
      · exact ⟨body, mem_cons_self .., paramsStr, params, hcut, hparams, hdumps⟩
      · obtain ⟨body', hbody', hrest'⟩ := hcalls call hcall
        exact ⟨body', mem_cons_of_mem _ hbody', hrest'⟩

theorem angle_of_cut {s name v : List Char} (h : cut ">".toList s = some (name, v)) :
    name ++ ">".toList <:+: s := by
  rw [cut_eq h]
  exact (prefix_append _ _).isInfix

/-- The name of a call, with the bracket after it, has none of the tags that end a block or a
function, and the names of its parameters none of those that end a parameter. -/
theorem names_of_blocks (hlib : Lawful lib) {blocks : List (List Char)} {i : Nat}
    {items : List ToolCallItem}
    (hblocks : ∀ content ∈ blocks, ¬ toolCallEndToken <:+: content)
    (h : parseFunctions lib tools i (blocks.flatMap findFunctions) = some items) :
    ∃ calls, items = numbered i calls ∧ ∀ call ∈ calls,
      (∀ p ∈ [toolCallEndToken, functionEndToken], ¬ p <:+: call.1 ++ ">".toList) ∧
      ∃ ms : List Json.Member, call.2 = '\x7b' :: Json.membersText (ms.map Json.Member.render) ∧
        ∀ m ∈ ms, ∀ p ∈ toolCallEndToken :: parameterEnds, ¬ p <:+: m.key ++ ">".toList := by
  obtain ⟨calls, rfl, hcalls⟩ := parseFunctions_cases _ h
  refine ⟨calls, rfl, fun call hcall => ?_⟩
  obtain ⟨body, hbody, paramsStr, params, hcut, hparams, hdumps⟩ := hcalls call hcall
  obtain ⟨content, hcontent, hbody⟩ := mem_flatMap.mp hbody
  obtain ⟨hin, hfunction⟩ := infix_findFunctions content body hbody
  have hend := hblocks content hcontent
  have hname := angle_of_cut hcut
  refine ⟨?_, ?_⟩
  · intro p hp hsub
    simp only [mem_cons, not_mem_nil, or_false] at hp
    rcases hp with rfl | rfl
    · exact hend (hsub.trans (hname.trans hin))
    · exact hfunction (hsub.trans hname)
  · obtain ⟨ms, htext, hkeys⟩ := dumpsDict_members hlib hdumps
    refine ⟨ms, htext, fun m hm p hp hsub => ?_⟩
    have hkey : m.key ∈ params.map Prod.fst := by
      rw [← hkeys]
      exact List.mem_map.mpr ⟨m, hm, rfl⟩
    obtain ⟨item, hitem, hitemkey⟩ := List.mem_map.mp hkey
    obtain ⟨pMatch, hmatch, v, hv⟩ := mem_parseParameters hparams item hitem
    obtain ⟨hpin, hpends⟩ := infix_findParameters paramsStr pMatch hmatch
    have hpname := angle_of_cut hv
    rw [hitemkey] at hpname
    rcases mem_cons.mp hp with rfl | hp
    · exact hend (hsub.trans (hpname.trans (hpin.trans ((infix_of_cut hcut).2.trans hin))))
    · exact hpends p hp (hsub.trans hpname)

end Calls

end Sglang.FunctionCall.Qwen3Coder

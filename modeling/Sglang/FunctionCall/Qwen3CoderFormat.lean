import Sglang.FunctionCall.Qwen3CoderOneShot

/-!
# Texts of Qwen3 Coder

The texts that the model writes: text in front, then blocks of one call each, with each value
between two newlines. What the one-shot parser makes of them.

- `Text`: texts, with names and values such as the format has them,
- `Call.Clean`: names that do not look like tags,
- `detectAndParse_clean`: the parser gives the calls,
- `clean_of_detectAndParse`: it does so for such names only.
-/

namespace Sglang.FunctionCall.Qwen3Coder

open List Option
open Lib

/-! ## Section 1: Tags in a text -/

theorem led_of_mem : ∀ p ∈ possibleTags, Led '<' p := by
  have h : ∀ p ∈ possibleTags, p.head? = some '<' ∧ '<' ∉ p.tail := by decide
  intro p hp
  obtain ⟨hhead, htail⟩ := h p hp
  obtain ⟨q, rfl⟩ := Json.cons_of_head? hhead
  exact ⟨q, rfl, htail⟩

theorem newline_not_mem : ∀ p ∈ possibleTags, '\n' ∉ p := by decide

theorem infix_append_cons {p x y : List Char} {d : Char} (hd : d ∉ p) (h : p <:+: x ++ d :: y) :
    p <:+: x ∨ p <:+: y := by
  obtain ⟨a, b, heq⟩ := h
  rcases append_eq_append_iff.mp heq with ⟨u, hu, _⟩ | ⟨u, hu, hy⟩
  · exact .inl ⟨a, u, hu.symm⟩
  · cases u with
    | nil => exact .inl ⟨a, [], by rw [append_nil, hu, append_nil]⟩
    | cons e u =>
      rw [cons_append, List.cons.injEq] at hy
      obtain ⟨rfl, rfl⟩ := hy
      rcases append_eq_append_iff.mp hu with ⟨w, _, hp⟩ | ⟨w, _, hp⟩
      · exact absurd (by rw [hp]; simp) hd
      · cases w with
        | nil => exact absurd (by rw [← show d :: u = p from hp]; simp) hd
        | cons f w =>
          rw [cons_append, List.cons.injEq] at hp
          exact .inr ⟨w, b, by rw [hp.2]⟩

def TagFree (s : List Char) : Prop := ∀ p ∈ possibleTags, ¬ p <:+: s

theorem tagFree_of_not_mem {s : List Char} (h : '<' ∉ s) : TagFree s := by
  intro p hp hin
  obtain ⟨q, rfl, _⟩ := led_of_mem p hp
  exact h (hin.subset (mem_cons_self ..))

theorem cut_self (p z : List Char) : cut p (p ++ z) = some ([], z) := by
  have h := @cut_of_first _ _ p [] z (by
    intro a₁ a₂ ha hne
    exact absurd (append_eq_nil_iff.mp ha.symm).2 hne)
  simpa using h

theorem cut_tag {p x : List Char} (hp : p ∈ possibleTags) (hx : ¬ p <:+: x) (z : List Char) :
    cut p (x ++ (p ++ z)) = some (x, z) := by
  have hhead : (p ++ z).head? = some '<' := by
    obtain ⟨q, rfl, _⟩ := led_of_mem p hp
    rfl
  rw [(led_of_mem p hp).cut_append hx (.inr hhead), cut_self]
  simp

theorem cut_angle {name : List Char} (h : '>' ∉ name) (z : List Char) :
    cut ">".toList (name ++ (">".toList ++ z)) = some (name, z) := by
  have hled : Led '>' ">".toList := ⟨[], rfl, not_mem_nil⟩
  have hnot : ¬ ">".toList <:+: name := fun hin => h (hin.subset (mem_cons_self ..))
  rw [hled.cut_append hnot (.inr rfl), cut_self]
  simp

/-! ## Section 2: Texts -/

/-- A parameter that is declared as a string, or not declared. -/
def StringTyped (config : Json) (name : List Char) : Prop :=
  contains config name = some false ∨
    ∃ schema, contains config name = some true ∧ getItem config name = some schema ∧
      (getItem schema "type".toList = none ∨
        getItem schema "type".toList = some (.str (Json.codes "string".toList)))

section Texts

variable {V : Type} (lib : PyLib V) (tools : Option (List Tool))

/-- A parameter of a function with the configuration `config`. -/
structure Param (config : Json) where
  name : List Char
  value : List Char
  name_angle : '>' ∉ name
  string : StringTyped config name
  value_free : TagFree value
  value_null : lib.lower value ≠ "null".toList

/-- A call, with the blanks after its block. -/
structure Call where
  name : List Char
  params : List (Param lib (getArgumentsConfig (some name) tools))
  sep : List Char
  name_angle : '>' ∉ name
  distinct : (params.map Param.name).Nodup
  sep_blank : ∀ c ∈ sep, Json.isBlank c = true

/-- A text: text without tags, and calls. -/
structure Text where
  lead : List Char
  calls : List (Call lib tools)
  lead_free : TagFree lead

variable {lib tools}

/-- A parameter after `<parameter=`, to the end of its value. -/
def Param.raw {config : Json} (p : Param lib config) : List Char :=
  p.name ++ (">".toList ++ ("\n".toList ++ (p.value ++ "\n".toList)))

def Param.render {config : Json} (p : Param lib config) : List Char :=
  parameterPrefix ++ (p.raw ++ (parameterEndToken ++ "\n".toList))

/-- A function after `<function=`. -/
def Call.body (c : Call lib tools) : List Char :=
  c.name ++ (">".toList ++ ("\n".toList ++ c.params.flatMap Param.render))

def Call.content (c : Call lib tools) : List Char :=
  "\n".toList ++ (toolCallPrefix ++ (c.body ++ (functionEndToken ++ "\n".toList)))

def Call.render (c : Call lib tools) : List Char :=
  toolCallStartToken ++ (c.content ++ (toolCallEndToken ++ c.sep))

def Text.render (t : Text lib tools) : List Char := t.lead ++ t.calls.flatMap Call.render

def Call.arguments (c : Call lib tools) : Json :=
  .obj (c.params.map fun p => (Json.codes p.name, .str (Json.codes p.value)))

/-- Names that do not make a tag with the bracket after them. -/
structure Call.Clean (c : Call lib tools) : Prop where
  name : ∀ p ∈ [toolCallEndToken, functionEndToken], ¬ p <:+: c.name ++ ">".toList
  params : ∀ q ∈ c.params, ∀ p ∈ toolCallEndToken :: parameterEnds, ¬ p <:+: q.name ++ ">".toList

/-! ## Section 3: The searches on a text -/

theorem blank_not_mem {w : List Char} (h : ∀ c ∈ w, Json.isBlank c = true) : '<' ∉ w := by
  intro hin
  exact absurd (h _ hin) (by decide)

theorem newline_eq : "\n".toList = ['\n'] := rfl

theorem parameterPrefix_eq : parameterPrefix = "<parameter".toList ++ ['='] := by decide

theorem toolCallPrefix_eq : toolCallPrefix = "<function".toList ++ ['='] := by decide

theorem infix_line {tag name p y : List Char} (heq : '=' ∉ p) (hnew : '\n' ∉ p)
    (htag : ¬ p <:+: tag) (h : p <:+: tag ++ '=' :: (name ++ (">".toList ++ '\n' :: y))) :
    p <:+: name ++ ">".toList ∨ p <:+: y := by
  rcases infix_append_cons heq h with h | h
  · exact absurd h htag
  · rw [← append_assoc] at h
    exact infix_append_cons hnew h

theorem infix_params {config : Json} {p : List Char} (hp : p ∈ possibleTags) (heq : '=' ∉ p)
    (hend : p ≠ parameterEndToken) (ps : List (Param lib config))
    (hin : p <:+: ps.flatMap Param.render) : ∃ q ∈ ps, p <:+: q.name ++ ">".toList := by
  have hnew := newline_not_mem p hp
  induction ps with
  | nil =>
    rw [flatMap_nil, infix_nil] at hin
    rw [hin] at hp
    exact absurd hp (by decide)
  | cons q ps ih =>
    have hrender : (q :: ps).flatMap Param.render = "<parameter".toList ++ '=' ::
        (q.name ++ (">".toList ++ '\n' :: (q.value ++ '\n' :: (parameterEndToken ++ '\n' ::
          ps.flatMap Param.render)))) := by
      simp only [flatMap_cons, Param.render, Param.raw, parameterPrefix_eq, newline_eq,
        append_assoc, cons_append, nil_append]
    have hline : ¬ p <:+: "<parameter".toList ∧ ¬ p <:+: parameterEndToken := by
      have hall : ∀ p ∈ possibleTags, '=' ∉ p → p ≠ parameterEndToken →
          ¬ p <:+: "<parameter".toList ∧ ¬ p <:+: parameterEndToken := by decide
      exact hall p hp heq hend
    rw [hrender] at hin
    rcases infix_line heq hnew hline.1 hin with hname | hin
    · exact ⟨q, mem_cons_self .., hname⟩
    rcases infix_append_cons hnew hin with hvalue | hin
    · exact absurd hvalue (q.value_free p hp)
    rcases infix_append_cons hnew hin with htag | hin
    · exact absurd htag hline.2
    · obtain ⟨q', hq', hname⟩ := ih hin
      exact ⟨q', mem_cons_of_mem _ hq', hname⟩

theorem Call.Clean.content_free {c : Call lib tools} (h : c.Clean) :
    ¬ toolCallEndToken <:+: c.content := by
  have hnew : '\n' ∉ toolCallEndToken := by decide
  intro hin
  have hcontent : c.content = [] ++ '\n' :: ("<function".toList ++ '=' :: (c.name ++ (">".toList ++
      '\n' :: (c.params.flatMap Param.render ++ (functionEndToken ++ '\n' :: []))))) := by
    simp only [Call.content, Call.body, toolCallPrefix_eq, newline_eq, append_assoc,
      cons_append, nil_append]
  rw [hcontent] at hin
  rcases infix_append_cons hnew hin with hin | hin
  · exact absurd hin (by decide)
  rcases infix_line (by decide) hnew (by decide) hin with hin | hin
  · exact h.name _ (by decide) hin
  rw [← append_assoc] at hin
  rcases infix_append_cons hnew hin with hin | hin
  · -- the end of the function is a tag of its own
    have hcut := (led_of_mem toolCallEndToken (by decide)).cut_append
      (x := c.params.flatMap Param.render) (z := functionEndToken) (by
        intro hparams
        obtain ⟨q, hq, hname⟩ := infix_params (by decide) (by decide) (by decide) c.params hparams
        exact h.params q hq _ (mem_cons_self ..) hname) (.inr rfl)
    rw [show cut toolCallEndToken functionEndToken = none by decide] at hcut
    exact cut_eq_none_iff.mp hcut hin
  · exact absurd hin (by decide)

theorem Call.Clean.body_free {c : Call lib tools} (h : c.Clean) :
    ¬ functionEndToken <:+: c.body := by
  intro hin
  have hbody : c.body = c.name ++ ">".toList ++ '\n' :: c.params.flatMap Param.render := by
    simp [Call.body]
  rw [hbody] at hin
  rcases infix_append_cons (by decide) hin with hin | hin
  · exact h.name _ (by decide) hin
  · obtain ⟨q, hq, hname⟩ := infix_params (by decide) (by decide) (by decide) c.params hin
    exact h.params q hq _ (by decide) hname

theorem findToolCalls_calls (cs : List (Call lib tools)) (hcs : ∀ c ∈ cs, c.Clean) :
    ∀ {x : List Char}, TagFree x →
    findToolCalls (x ++ cs.flatMap Call.render) = cs.map Call.content := by
  induction cs with
  | nil =>
    intro x hx
    rw [flatMap_nil, append_nil, findToolCalls]
    split
    · rfl
    · next h =>
      rw [cut_eq_none_iff.mpr (hx _ (by decide))] at h
      cases h
  | cons c cs ih =>
    intro x hx
    have hclean := hcs c (mem_cons_self ..)
    have hrender : x ++ (c :: cs).flatMap Call.render = x ++ (toolCallStartToken ++ (c.content ++
        (toolCallEndToken ++ (c.sep ++ cs.flatMap Call.render)))) := by
      simp [Call.render]
    rw [hrender, findToolCalls]
    split
    · next h =>
      rw [cut_tag (by decide) (hx _ (by decide))] at h
      cases h
    · next h =>
      rw [cut_tag (by decide) (hx _ (by decide))] at h
      cases h
      split
      · next h =>
        rw [cut_tag (by decide) hclean.content_free] at h
        cases h
      · next h =>
        rw [cut_tag (by decide) hclean.content_free] at h
        cases h
        rw [map_cons, ih (fun c hc => hcs c (mem_cons_of_mem _ hc))
          (tagFree_of_not_mem (blank_not_mem c.sep_blank))]

theorem findFunctions_content {c : Call lib tools} (h : c.Clean) :
    findFunctions c.content = [c.body] := by
  have hnil : findFunctions "\n".toList = [] := by
    rw [findFunctions]
    rfl
  rw [Call.content, findFunctions]
  split
  · next heq =>
    rw [cut_tag (by decide) (by decide)] at heq
    cases heq
  · next heq =>
    rw [cut_tag (by decide) (by decide)] at heq
    cases heq
    split
    · next heq =>
      rw [cut_tag (by decide) h.body_free] at heq
      cases heq
    · next heq =>
      rw [cut_tag (by decide) h.body_free] at heq
      cases heq
      rw [hnil]

theorem spanParameter_tag {x : List Char} (hx : ∀ p ∈ parameterEnds, ¬ p <:+: x) (z : List Char) :
    spanParameter (x ++ (parameterEndToken ++ z)) = (x, z) := by
  induction x with
  | nil =>
    rw [nil_append, show parameterEndToken ++ z = '<' :: (parameterEndToken.tail ++ z) from rfl,
      spanParameter, if_pos]
    · exact congrArg (Prod.mk _) (@List.drop_left _ parameterEndToken z)
    · exact prefix_append parameterEndToken z
  | cons d x ih =>
    have htags : ∀ p ∈ parameterEnds, p ∈ possibleTags := by decide
    have hno : ∀ p ∈ parameterEnds, ¬ p <+: d :: (x ++ (parameterEndToken ++ z)) := by
      intro p hp hpre
      exact (led_of_mem p (htags p hp)).not_isPrefix (hx p hp) [] (d :: x) rfl (by simp) hpre
    have hlong : d :: (x ++ (parameterEndToken ++ z)) ≠ ['\n'] := by
      intro heq
      have hlen := congrArg List.length heq
      have hpos : 0 < parameterEndToken.length := by decide
      simp only [length_cons, length_append, length_nil] at hlen
      omega
    rw [cons_append, spanParameter, if_neg (hno _ (by decide)), if_neg (by
      simp only [not_or]
      exact ⟨hno _ (by decide), hno _ (by decide), hlong⟩), ih fun p hp hin =>
        hx p hp (hin.trans (suffix_cons d x).isInfix)]

theorem Param.raw_free {config : Json} {q : Param lib config}
    (h : ∀ p ∈ parameterEnds, ¬ p <:+: q.name ++ ">".toList) :
    ∀ p ∈ parameterEnds, ¬ p <:+: q.raw := by
  have htags : ∀ p ∈ parameterEnds, p ∈ possibleTags := by decide
  have hnil : ∀ p ∈ parameterEnds, ¬ p <:+: [] := by decide
  intro p hp hin
  have hnew := newline_not_mem p (htags p hp)
  have hraw : q.raw = q.name ++ ">".toList ++ '\n' :: (q.value ++ '\n' :: []) := by simp [Param.raw]
  rw [hraw] at hin
  rcases infix_append_cons hnew hin with hin | hin
  · exact h p hp hin
  rcases infix_append_cons hnew hin with hin | hin
  · exact q.value_free p (htags p hp) hin
  · exact hnil p hp hin

theorem findParameters_params {config : Json} (ps : List (Param lib config))
    (h : ∀ q ∈ ps, ∀ p ∈ parameterEnds, ¬ p <:+: q.name ++ ">".toList) :
    findParameters ("\n".toList ++ ps.flatMap Param.render) = ps.map Param.raw := by
  induction ps with
  | nil =>
    rw [findParameters]
    rfl
  | cons q ps ih =>
    have hrender : "\n".toList ++ (q :: ps).flatMap Param.render =
      "\n".toList ++ (parameterPrefix ++
        (q.raw ++ (parameterEndToken ++ ("\n".toList ++ ps.flatMap Param.render)))) := by
      simp [Param.render]
    rw [hrender, findParameters]
    split
    · next heq =>
      rw [cut_tag (by decide) (by decide)] at heq
      cases heq
    · next heq =>
      rw [cut_tag (by decide) (by decide)] at heq
      cases heq
      rw [spanParameter_tag (Param.raw_free (h q (mem_cons_self ..)))]
      rw [ih fun q hq => h q (mem_cons_of_mem _ hq), map_cons]

/-! ## Section 4: The result on a text -/

theorem cleanup_wrapped (v : List Char) : cleanup ("\n".toList ++ (v ++ "\n".toList)) = v := by
  have hdrop : ("\n".toList ++ (v ++ "\n".toList)).drop 1 = v ++ "\n".toList := rfl
  unfold cleanup
  rw [if_pos (prefix_append _ _), hdrop]
  dsimp only
  rw [if_pos (suffix_append _ _)]
  exact dropLast_concat

theorem convert_param (hlib : Lawful lib) {config : Json} (q : Param lib config) :
    convertParamValue lib q.value q.name config = some (lib.str q.value) := by
  unfold convertParamValue
  rw [if_neg q.value_null]
  rcases q.string with h | ⟨schema, h, hitem, htype⟩
  · rw [h]
  · have hstring : paramType lib schema = "string".toList := by
      unfold paramType
      rcases htype with htype | htype
      · rw [htype]
      · rw [htype]
        exact hlib.type_string
    rw [h]
    simp only [hitem, map_some, hstring]
    rfl

theorem addParameter_raw (hlib : Lawful lib) {config : Json} (q : Param lib config)
    {params : List (List Char × V)} (hnew : q.name ∉ params.map Prod.fst) :
    addParameter lib config params q.raw = some (params ++ [(q.name, lib.str q.value)]) := by
  unfold addParameter
  rw [Param.raw, cut_angle q.name_angle]
  dsimp only
  rw [cleanup_wrapped, convert_param hlib]
  simp only [bind_eq_bind, bind_some, setItem, if_neg hnew]

theorem foldlM_params (hlib : Lawful lib) {config : Json} (ps : List (Param lib config)) :
    ∀ {params : List (List Char × V)}, (params.map Prod.fst ++ ps.map Param.name).Nodup →
    (ps.map Param.raw).foldlM (addParameter lib config) params =
      some (params ++ ps.map fun q => (q.name, lib.str q.value)) := by
  induction ps with
  | nil =>
    intro params _
    simp
  | cons q ps ih =>
    intro params hnodup
    have hnew : q.name ∉ params.map Prod.fst := by
      intro hin
      exact nodup_append.mp hnodup |>.2.2 _ hin _ (by simp) rfl
    rw [map_cons, foldlM_cons, addParameter_raw hlib q hnew, bind_eq_bind,
      bind_some, ih (by simpa using hnodup)]
    simp

/-- A parameter as a member of an object. -/
def Param.member {config : Json} (ensureAscii : Bool) (q : Param lib config) : Json.Member :=
  ⟨ensureAscii, q.name, Json.dumpsString false q.value, .str (Json.codes q.value),
    Json.loads_dumpsString false q.value⟩

/-- The text of an object with the parameters of a call. -/
def Call.dumps (ensureAscii : Bool) (c : Call lib tools) : List Char :=
  '\x7b' :: Json.membersText ((c.params.map (Param.member ensureAscii)).map Json.Member.render)

theorem Call.loads_dumps (ensureAscii : Bool) (c : Call lib tools) :
    Json.loads (c.dumps ensureAscii) = some c.arguments := by
  rw [Call.dumps, Json.loads_object, Call.arguments, List.map_map]
  rfl

theorem dumpsDict_params (hlib : Lawful lib) (c : Call lib tools) :
    dumpsDict lib (c.params.map fun q => (q.name, lib.str q.value)) = some (c.dumps false) := by
  unfold dumpsDict
  have hmembers : ∀ ps : List (Param lib (getArgumentsConfig (some c.name) tools)),
      (ps.map fun q => (q.name, lib.str q.value)).mapM (fun item => do
        let text ← lib.dumps item.2
        some (Json.dumpsString false item.1 ++ ": ".toList ++ text)) =
      some ((ps.map (Param.member false)).map Json.Member.render) := by
    intro ps
    induction ps with
    | nil => rfl
    | cons q ps ih =>
      rw [map_cons, mapM_cons, ih]
      simp only [hlib.dumps_str]
      rfl
  rw [hmembers]
  rfl

theorem parseFunctions_bodies (hlib : Lawful lib) (cs : List (Call lib tools))
    (hcs : ∀ c ∈ cs, c.Clean) : ∀ i, parseFunctions lib tools i (cs.map Call.body) =
      some (numbered i (cs.map fun c => (c.name, c.dumps false))) := by
  induction cs with
  | nil => exact fun i => rfl
  | cons c cs ih =>
    intro i
    have hclean := hcs c (mem_cons_self ..)
    have hparams : parseParameters lib (getArgumentsConfig (some c.name) tools)
        ("\n".toList ++ c.params.flatMap Param.render) =
          some (c.params.map fun q => (q.name, lib.str q.value)) := by
      unfold parseParameters
      rw [findParameters_params c.params fun q hq p hp =>
        hclean.params q hq p (mem_cons_of_mem _ hp)]
      exact foldlM_params hlib c.params (by simpa using c.distinct)
    rw [map_cons, parseFunctions, Call.body, cut_angle c.name_angle]
    dsimp only
    rw [hparams, bind_eq_bind, bind_some, dumpsDict_params hlib, bind_eq_bind,
      bind_some, ih (fun c hc => hcs c (mem_cons_of_mem _ hc)), bind_eq_bind,
      bind_some]
    simp [numbered, zipIdx_cons]

/-- The names and the texts of arguments that denote the calls. -/
def Denotes (calls : List (Call lib tools)) (pairs : List (List Char × List Char)) : Prop :=
  List.Forall₂ (fun c pair => pair.1 = c.name ∧ Json.loads pair.2 = some c.arguments) calls pairs

theorem denotes_dumps (ensureAscii : Bool) (cs : List (Call lib tools)) :
    Denotes cs (cs.map fun c => (c.name, c.dumps ensureAscii)) := by
  induction cs with
  | nil => exact .nil
  | cons c cs ih => exact .cons ⟨rfl, c.loads_dumps ensureAscii⟩ ih

theorem find_start (t : Text lib tools) (h : t.calls ≠ []) :
    find toolCallStartToken t.render = some t.lead.length := by
  obtain ⟨c, cs, hcs⟩ := exists_cons_of_ne_nil h
  have hrender : t.render = t.lead ++ (toolCallStartToken ++ (c.content ++ (toolCallEndToken ++
      (c.sep ++ cs.flatMap Call.render)))) := by
    simp [Text.render, hcs, Call.render]
  rw [hrender]
  exact find_of_cut (cut_tag (by decide) (t.lead_free _ (by decide)) _)

theorem render_of_nil {t : Text lib tools} (h : t.calls = []) : t.render = t.lead := by
  rw [Text.render, h, flatMap_nil, append_nil]

theorem detectAndParse_of_nil {t : Text lib tools} (h : t.calls = []) :
    detectAndParse lib tools t.render = ⟨t.lead, []⟩ := by
  rw [render_of_nil h, detectAndParse, find_none (t.lead_free _ (by decide))]

/-- The parser gives the text in front and the calls, if the names are clean. -/
theorem detectAndParse_clean (hlib : Lawful lib) (t : Text lib tools)
    (h : ∀ c ∈ t.calls, c.Clean) : detectAndParse lib tools t.render =
      ⟨t.lead, numbered 0 (t.calls.map fun c => (c.name, c.dumps false))⟩ := by
  by_cases hnil : t.calls = []
  · rw [detectAndParse_of_nil hnil, hnil]
    rfl
  have hblocks : findToolCalls t.render = t.calls.map Call.content :=
    findToolCalls_calls t.calls h t.lead_free
  have hraw : rawToolCalls t.render = t.calls.map Call.content := by
    unfold rawToolCalls
    rw [hblocks]
    dsimp only
    rw [if_neg fun hand => hnil (map_eq_nil_iff.mp hand.1)]
  have hfunctions : (t.calls.map Call.content).flatMap findFunctions = t.calls.map Call.body := by
    rw [flatMap_map]
    have hone : ∀ cs : List (Call lib tools), (∀ c ∈ cs, c.Clean) →
        (cs.flatMap fun c => findFunctions c.content) = cs.map Call.body := by
      intro cs hcs
      induction cs with
      | nil => rfl
      | cons c cs ih =>
        rw [flatMap_cons, findFunctions_content (hcs c (mem_cons_self ..)),
          ih fun c hc => hcs c (mem_cons_of_mem _ hc)]
        rfl
    exact hone t.calls h
  have htake : t.render.take t.lead.length = t.lead := by rw [Text.render, take_left]
  simp only [detectAndParse, find_start t hnil, hraw, hfunctions,
    parseFunctions_bodies hlib t.calls h, htake]

/-! ## Section 5: Names that are not clean -/

theorem findToolCalls_ne_nil (t : Text lib tools) (h : t.calls ≠ []) :
    findToolCalls t.render ≠ [] := by
  obtain ⟨c, cs, hcs⟩ := exists_cons_of_ne_nil h
  have hrender : t.render = t.lead ++ (toolCallStartToken ++ (c.content ++ (toolCallEndToken ++
      (c.sep ++ cs.flatMap Call.render)))) := by
    simp [Text.render, hcs, Call.render]
  rw [hrender, findToolCalls]
  split
  · next hcut =>
    rw [cut_tag (by decide) (t.lead_free _ (by decide))] at hcut
    cases hcut
  · next hcut =>
    rw [cut_tag (by decide) (t.lead_free _ (by decide))] at hcut
    cases hcut
    split
    · next hcut =>
      exact absurd ⟨c.content, _, by rw [append_assoc]⟩ (cut_eq_none_iff.mp hcut)
    · exact cons_ne_nil _ _

theorem codes_injective {a b : List Char} (h : Json.codes a = Json.codes b) : a = b := by
  apply map_injective_iff.mpr _ h
  intro c d hcd
  exact Char.toNat_inj.mp hcd

theorem clean_of_denotes {cs : List (Call lib tools)} {pairs : List (List Char × List Char)}
    (h : Denotes cs pairs) : (∀ call ∈ pairs,
      (∀ p ∈ [toolCallEndToken, functionEndToken], ¬ p <:+: call.1 ++ ">".toList) ∧
      ∃ ms : List Json.Member, call.2 = '\x7b' :: Json.membersText (ms.map Json.Member.render) ∧
        ∀ m ∈ ms, ∀ p ∈ toolCallEndToken :: parameterEnds, ¬ p <:+: m.key ++ ">".toList) →
    ∀ c ∈ cs, c.Clean := by
  induction h with
  | nil =>
    intro _ c hc
    exact absurd hc not_mem_nil
  | @cons c pair cs pairs hhead _ ih =>
    intro hnames c' hc'
    rcases mem_cons.mp hc' with rfl | hc'
    · obtain ⟨hname, ms, htext, hms⟩ := hnames pair (mem_cons_self ..)
      refine ⟨hhead.1 ▸ hname, fun q hq => ?_⟩
      have hloads := hhead.2
      rw [htext, Json.loads_object, Call.arguments, Option.some.injEq, Json.obj.injEq] at hloads
      have hmem : (Json.codes q.name, Json.str (Json.codes q.value)) ∈ ms.map Json.Member.read := by
        rw [hloads]
        exact List.mem_map.mpr ⟨q, hq, rfl⟩
      obtain ⟨m, hm, hread⟩ := List.mem_map.mp hmem
      have hkey : m.key = q.name := codes_injective (Prod.mk.inj hread).1
      rw [← hkey]
      exact hms m hm
    · exact ih (fun call hcall => hnames call (mem_cons_of_mem _ hcall)) c' hc'

theorem clean_of_detectAndParse (hlib : Lawful lib) (t : Text lib tools)
    {pairs : List (List Char × List Char)}
    (hcalls : (detectAndParse lib tools t.render).calls = numbered 0 pairs)
    (hpairs : Denotes t.calls pairs) : ∀ c ∈ t.calls, c.Clean := by
  by_cases hnil : t.calls = []
  · rw [hnil]
    simp
  have hraw : rawToolCalls t.render = findToolCalls t.render := by
    unfold rawToolCalls
    dsimp only
    rw [if_neg fun hand => findToolCalls_ne_nil t hnil hand.1]
  simp only [detectAndParse, find_start t hnil, hraw] at hcalls
  cases hparse : parseFunctions lib tools 0 ((findToolCalls t.render).flatMap findFunctions) with
  | none =>
    -- nothing was parsed, but there is a call
    rw [hparse] at hcalls
    have hlen := hpairs.length_eq
    have hpairs0 : pairs = [] := numbered_injective (i := 0) (hcalls.symm.trans rfl)
    rw [hpairs0, length_nil, length_eq_zero_iff] at hlen
    exact absurd hlen hnil
  | some items =>
    rw [hparse] at hcalls
    obtain ⟨calls, rfl, hnames⟩ := names_of_blocks hlib (not_infix_findToolCalls t.render) hparse
    have heq : calls = pairs := numbered_injective hcalls
    subst heq
    exact clean_of_denotes hpairs hnames

end Texts

end Sglang.FunctionCall.Qwen3Coder

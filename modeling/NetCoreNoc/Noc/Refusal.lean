import Mathlib
import NetCoreNoc.Json.Limits
import NetCoreNoc.Noc.Stored

/-! What the check of a playbook raises: a `PlaybookError`, where names have a hash and the document has a text. -/
namespace NetCoreNoc.Noc.Playbook

open Json Text Checks Templates

variable {F : Type}

/-- Neither a list nor an object: such have no hash. -/
def Scalar : Doc F → Prop
  | .list _ | .obj _ => False
  | _ => True

/-- The value under a key, where there is one, is a scalar. -/
def ScalarAt (o : Entries F) (key : String) : Prop := ∀ v ∈ get o key, Scalar v

/-- What a leaf or a step names is a scalar. -/
structure ScalarStep (o : Entries F) : Prop where
  cause : ScalarAt o "cause"
  status : ScalarAt o "status"
  go : ∀ bs, get o "next" = some (.list bs) → ∀ b, .obj b ∈ bs → ScalarAt b "go"

/-- Everything that a document is to name is a scalar. -/
structure Hashable (doc : Doc F) : Prop where
  start : ∀ o, doc = .obj o → ScalarAt o "start"
  step : ∀ o steps, doc = .obj o → get o "steps" = some (.obj steps) → ∀ e ∈ steps, ∀ s, e.2 = .obj s → ScalarStep s

/-- The document has a text in UTF-8, that a Python writes. -/
structure Writable [Python] [PyFloat F] (doc : Doc F) : Prop where
  nesting : nesting doc ≤ Python.depth
  digits : Fits MAX_STR_DIGITS doc
  text : (encodeUtf8 (rawText (sorted doc))).isSome

theorem isText_str {longest : ℕ} {v : Doc F} (h : isText longest v) : ∃ s, v = .str s := by
  cases v with
  | str s => exact ⟨s, rfl⟩
  | null | bool | int | float | list | obj => cases h

theorem isWithin_str {longest : ℕ} {v : Doc F} (h : isWithin longest v) : ∃ s, v = .str s := by
  cases v with
  | str s => exact ⟨s, rfl⟩
  | null | bool | int | float | list | obj => cases h

theorem fits_get {o : Entries F} {key : String} {v : Doc F} (h : Fits MAX_STR_DIGITS (.obj o))
    (hv : get o key = some v) : Fits MAX_STR_DIGITS v :=
  fitsEntries_iff.mp h _ (get_mem hv)

theorem fitsAll_iff {limit : ℕ} {l : List (Doc F)} : FitsAll limit l ↔ ∀ j ∈ l, Fits limit j := by
  induction l with
  | nil => exact iff_of_true trivial nofun
  | cons j l ih => rw [FitsAll, ih, List.forall_mem_cons]

variable {place : Str}

theorem only_strings {value : Doc F} {most longest : ℕ} :
    Only Raised.IsPlaybookError (strings place value most longest) := by
  cases value with
  | list l => exact (only_ensure trivial).bind fun _ _ => (only_ensure trivial).bind fun _ _ => only_ok
  | null | bool | int | float | str | obj => exact only_error trivial

theorem only_slots {place s : Str} : Only Raised.IsPlaybookError (slots place s) :=
  (only_ensure trivial).bind fun _ _ => only_ok

theorem only_among {names : List Str} {v : Doc F} {e : Except Raised Raised} (hv : Scalar v)
    (he : ∃ r, e = .ok r ∧ r.IsPlaybookError) : Only Raised.IsPlaybookError (among names v e) := by
  obtain ⟨r, rfl, hr⟩ := he
  have hmember : Only Raised.IsPlaybookError (member names v) := by
    cases v with
    | list | obj => cases hv
    | null | bool | int | float | str => exact only_ok
  refine hmember.bind fun found _ => ?_
  cases found with
  | some s => exact only_ok
  | none => exact only_error hr

theorem only_get {P : Raised → Prop} {o : Entries F} {key : String} {v : Doc F} (h : get o key = some v) :
    Only P (item o key) := by
  rw [item_ok.mpr h]
  exact only_ok

theorem only_acyclic {graph : List (Str × List Str)} {start : Str} (hstart : start ∈ graph.map Prod.fst)
    (h : ∀ name targets, graph.lookup name = some targets → targets ⊆ graph.map Prod.fst) :
    Only Raised.IsPlaybookError (acyclic graph start) := by
  have hkeys : ∀ name ∈ graph.map Prod.fst,
      ∃ targets, graph.lookup name = some targets ∧ targets ⊆ graph.map Prod.fst :=
    fun name hname => (lookup_of_mem hname).imp fun targets ht => ⟨ht, h name targets ht⟩
  have herror {e : Acyclic.Fault Str}
      (he : Acyclic.visit (graph.lookup ·) (graph.length + 1) start ⟨[], []⟩ = .error e) : ∃ b, e = .cycle b :=
    Acyclic.visit_error hkeys he hstart ⟨rfl, trivial, List.disjoint_nil_left _⟩ .nil (List.nil_subset _) (by simp)
  unfold acyclic
  split
  · exact only_error trivial
  · next hvisit => exact nomatch (herror hvisit).choose_spec
  · next hvisit => exact nomatch (herror hvisit).choose_spec
  · exact only_noneOf fun _ => trivial

variable [Python]

theorem only_keys {value : Doc F} {allowed required : List Str} :
    Only Raised.IsPlaybookError (keys place value allowed required) := by
  cases value with
  | obj o =>
    exact (only_noneOf fun _ => trivial).bind fun _ _ => (only_noneOf fun _ => trivial).bind fun _ _ => only_ok
  | null | bool | int | float | str | list => exact only_error trivial

/-- A key that was required is there. -/
theorem only_item {P : Raised → Prop} {value : Doc F} {allowed required : List Str} {o : Entries F}
    (h : keys place value allowed required = .ok o) {key : String} (hkey : lit key ∈ required) :
    Only P (item o key) := by
  obtain ⟨v, hv⟩ := lookup_of_mem ((keys_ok.mp h).2.2 _ hkey)
  exact only_get hv

theorem only_condition {cond : Doc F} : Only Raised.IsPlaybookError (condition place cond) := by
  refine only_keys.bind fun o _ => (only_ensure trivial).bind fun _ _ =>
    (Only.each fun key _ => only_ensure trivial).bind fun texts htexts => (Only.each fun key hkey => ?_).bind
      fun _ _ => (Only.each fun key _ => only_ensure trivial).bind fun _ _ => only_ensure trivial
  split
  · exact only_ok
  · next v hv =>
    have hmem : key ∈ ["contains", "not_contains", "number_after", "vendor"] := by
      simp only [List.mem_cons, List.not_mem_nil, or_false] at hkey ⊢
      tauto
    obtain ⟨_, -, htext⟩ := each_mem htexts hmem
    obtain ⟨s, rfl⟩ := isText_str (ensure_ok.mp htext v hv)
    exact only_slots

theorem only_command {v : Doc F} : Only Raised.IsPlaybookError (command place v) := by
  cases v with
  | str s =>
    refine only_slots.bind fun probe _ => ?_
    split
    · exact only_ok
    · exact only_error trivial
    · next e hnot he =>
      have := only_check _ _ e he
      cases e with
      | CommandError message => exact absurd rfl (hnot message)
      | PlaybookError | KeyError | IndexError | TypeError | AttributeError | ValueError | StopIteration
        | UnicodeEncodeError | RecursionError | DataError => cases this
  | null | bool | int | float | list | obj => exact only_error trivial

theorem only_action {step : Entries F} : Only Raised.IsPlaybookError (action place step) := by
  unfold action
  split
  · exact only_ok
  · refine only_keys.bind fun work _ => (only_ensure trivial).bind fun _ hone => ?_
    split
    · cases ensure_ok.mp hone
    · split_ifs
      · exact only_keys.bind fun _ _ => only_ok
      · exact only_keys.bind fun args hargs => (only_item hargs (by simp)).bind fun _ _ =>
          only_command.bind fun _ _ => only_ensure trivial
      · exact only_keys.bind fun args hargs => (only_item hargs (by simp)).bind fun _ _ =>
          only_strings.bind fun _ _ => only_ensure trivial

theorem only_ending {step : Entries F} {kind : Doc F} (h : ScalarStep step) :
    Only Raised.IsPlaybookError (ending place step kind) := by
  unfold ending
  split_ifs
  · refine only_keys.bind fun o ho => Only.bind ?_ fun cause hcause => ?_
    · obtain rfl := Doc.obj.inj (keys_ok.mp ho).1
      exact only_item ho (by simp)
    · exact (only_among (h.cause cause (item_ok.mp hcause)) ⟨invalid _ _, rfl, trivial⟩).bind fun _ _ =>
        only_ensure trivial
  · refine only_keys.bind fun o ho => ?_
    obtain rfl := Doc.obj.inj (keys_ok.mp ho).1
    refine (only_item ho (by simp)).bind fun status hstatus =>
      (only_among (h.status status (item_ok.mp hstatus)) ⟨invalid _ _, rfl, trivial⟩).bind fun _ _ =>
        (only_ensure trivial).bind fun _ _ => (only_item ho (by simp)).bind fun w _ => only_keys.bind fun u hu =>
          (Only.each fun e he => ?_).bind fun _ _ => only_ok
    have hfield := (keys_ok.mp hu).2.1 e.1 (List.mem_map_of_mem he)
    unfold updated
    split
    · next hnone =>
      obtain ⟨f, hf, heq⟩ := List.mem_map.mp (List.mem_of_mem_filter hfield)
      have := List.lookup_eq_none_iff.mp hnone f hf
      rw [heq] at this
      simp at this
    · refine (only_ensure trivial).bind fun _ hwithin => ?_
      obtain ⟨s, hs⟩ := isWithin_str (ensure_ok.mp hwithin)
      rw [hs]
      exact only_slots.bind fun _ _ => only_ok
  · exact only_keys.bind fun _ _ => only_ok
  · exact only_error trivial

theorem only_end {step : Entries F} (hend : (get step "end").isSome) (h : ScalarStep step) :
    Only Raised.IsPlaybookError (end_ place step) := by
  obtain ⟨kind, hkind⟩ := Option.isSome_iff_exists.mp hend
  refine (only_get hkind).bind fun _ _ => (only_ending h).bind fun _ _ => (Only.each fun key _ => ?_).bind fun _ _ =>
    only_ok
  unfold remark
  split
  · exact only_ok
  · refine (only_ensure trivial).bind fun _ hwithin => ?_
    obtain ⟨s, rfl⟩ := isWithin_str (ensure_ok.mp hwithin)
    exact only_slots.bind fun _ _ => only_ok

variable [PyFloat F]

theorem shown_ok {v : Doc F} (hv : Scalar v) (hfits : Fits MAX_STR_DIGITS v) : ∃ s, shown v = .ok s := by
  cases v with
  | list | obj => cases hv
  | int n => exact ⟨_, if_pos (hfits.resolve_left (by decide))⟩
  | bool b => cases b <;> exact ⟨_, rfl⟩
  | null | float | str => exact ⟨_, rfl⟩

theorem only_named {names : List Str} {v : Doc F} (hv : Scalar v) (hfits : Fits MAX_STR_DIGITS v) :
    Only Raised.IsPlaybookError (among names v (noStep place v)) := by
  obtain ⟨s, hs⟩ := shown_ok hv hfits
  refine only_among hv ⟨invalid place (lit "no step " ++ s), ?_, trivial⟩
  rw [noStep, hs]
  rfl

theorem only_branches {names : List Str} {step : Entries F} (hnext : lit "next" ∈ step.map Prod.fst)
    (h : ScalarStep step) (hfits : Fits MAX_STR_DIGITS (.obj step)) :
    Only Raised.IsPlaybookError (branches place names step) := by
  obtain ⟨v, hv⟩ := lookup_of_mem hnext
  refine (only_get hv).bind fun w hw => ?_
  obtain rfl : v = w := Option.some.inj (hv.symm.trans (item_ok.mp hw))
  split
  · next bs =>
    refine (only_ensure trivial).bind fun _ hlength => (Only.each fun b hb => ?_).bind fun targets htargets => ?_
    · refine only_keys.bind fun o ho => ?_
      have hobj := (keys_ok.mp ho).1
      have hmem : .obj o ∈ bs := hobj ▸ List.fst_mem_of_mem_zipIdx hb
      refine Only.bind ?_ fun _ _ => (only_item ho (by simp)).bind fun go hgo => ?_
      · unfold tested
        split
        · exact only_condition
        · exact only_ensure trivial
      · refine only_named (h.go bs hv o hmem go (item_ok.mp hgo)) (fits_get ?_ (item_ok.mp hgo))
        exact fitsAll_iff.mp (fits_get hfits hv) _ hmem
    · split
      · next hnone =>
        rw [List.getLast?_eq_none_iff] at hnone
        subst hnone
        exact absurd (ensure_ok.mp hlength).1 (by simp)
      · next b hb =>
        obtain ⟨i, hi⟩ := List.getElem?_of_mem (List.mem_of_getLast? hb)
        obtain ⟨t, -, ht⟩ := each_mem htargets (List.mk_mem_zipIdx_iff_getElem?.mpr hi)
        obtain ⟨o, rfl, -⟩ := (branch_ok ht).shape
        exact only_ok.bind fun _ _ => (only_ensure trivial).bind fun _ _ => only_ok
  · exact only_error trivial

theorem only_step {name : Str} {v : Doc F} {names : List Str} (h : ∀ s, v = .obj s → ScalarStep s)
    (hfits : Fits MAX_STR_DIGITS v) : Only Raised.IsPlaybookError (step name v names) := by
  cases v with
  | obj o =>
    simp only [step]
    split_ifs with hend
    · exact only_end hend (h o rfl)
    · refine only_keys.bind fun p hp => ?_
      obtain rfl := Doc.obj.inj (keys_ok.mp hp).1
      exact only_action.bind fun _ _ => only_branches ((keys_ok.mp hp).2.2 _ (by simp)) (h o rfl) hfits
  | null | bool | int | float | str | list => exact only_error trivial

omit [PyFloat F] in
theorem only_matching {v : Doc F} : Only Raised.IsPlaybookError (matching v) :=
  only_keys.bind fun _ _ => (only_ensure trivial).bind fun _ _ => only_strings.bind fun _ _ => only_strings.bind
    fun _ _ => (only_ensure trivial).bind fun _ _ => only_strings.bind fun _ _ => only_ensure trivial

/-- A playbook whose names have a hash and that has a text is checked, or refused. -/
theorem only_validate {doc : Doc F} (hhash : Hashable doc) (hwrite : Writable doc) :
    Only Raised.IsPlaybookError (validate doc) := by
  refine only_keys.bind fun o ho => (only_item ho (by simp)).bind fun _ _ => (only_ensure trivial).bind fun _ _ =>
    (only_ensure trivial).bind fun _ _ => (only_item ho (by simp)).bind fun _ _ => only_matching.bind fun _ _ =>
      (only_ensure trivial).bind fun _ _ => (only_item ho (by simp)).bind fun v hv => ?_
  obtain rfl := (keys_ok.mp ho).1
  split
  · next steps =>
    have hsteps := item_ok.mp hv
    have hfits := fits_get hwrite.digits hsteps
    refine (only_ensure trivial).bind fun _ _ => (only_noneOf fun _ => trivial).bind fun _ _ =>
      (only_item ho (by simp)).bind fun s hs => (only_named (hhash.start o rfl s (item_ok.mp hs))
        (fits_get hwrite.digits (item_ok.mp hs))).bind fun start hstart => (Only.each fun e he => ?_).bind
          fun graph hgraph => Only.bind ?_ fun _ _ => Only.bind ?_ fun text htext => Only.bind ?_ fun _ _ =>
            (only_ensure trivial).bind fun _ _ => only_ok
    · refine (only_step (hhash.step o steps rfl hsteps e he) ?_).bind fun _ _ => only_ok
      exact fitsEntries_iff.mp hfits e he
    · obtain ⟨hkeys, hlookup⟩ := each_lookup hgraph
      refine only_acyclic (hkeys ▸ (among_ok hstart).2) fun name targets htargets => ?_
      obtain ⟨v, -, hv⟩ := hlookup name targets htargets
      exact hkeys ▸ (step_ok hv).targets
    · rw [canonical, ensure, if_pos hwrite.nesting, ensure, if_pos hwrite.digits]
      exact only_ok
    · obtain ⟨b, hb⟩ := Option.isSome_iff_exists.mp hwrite.text
      simp only [canonical, bind_ok] at htext
      obtain ⟨_, -, _, -, htext⟩ := htext
      obtain rfl := Except.ok.inj htext
      rw [encoded, hb]
      exact only_ok
  · exact only_error trivial

end NetCoreNoc.Noc.Playbook

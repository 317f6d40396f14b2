import Mathlib
import NetCoreNoc.Noc.Playbook

/-! What the check of a playbook raises, and what the playbooks are that it lets through. -/
namespace NetCoreNoc.Noc.Playbook

open Json Text Checks Templates

variable {F : Type}

/-- A brace of either side. -/
def IsBrace (c : CodePoint) : Prop := c = brace ∨ c = unbrace

/-- A text that the two placeholders fill whole. -/
def Fillable : Doc F → Prop
  | .str s => Filled IsBrace (token (lit "ip")) (token (lit "entity")) s
  | _ => False

/-- A text with its placeholders filled. -/
def filledBy (ip entity s : Str) : Str := replace (token (lit "entity")) entity (replace (token (lit "ip")) ip s)

variable {o : Entries F} {key : String}

theorem get_mem {v : Doc F} (h : get o key = some v) : (lit key, v) ∈ o := by
  obtain ⟨l, r, rfl, -⟩ := List.lookup_eq_some_iff.mp h
  simp

theorem lookup_of_mem {α : Type} {l : List (Str × α)} {key : Str} (h : key ∈ l.map Prod.fst) :
    ∃ v, l.lookup key = some v := by
  rcases hv : l.lookup key with - | v
  · obtain ⟨e, he, heq⟩ := List.mem_map.mp h
    have := List.lookup_eq_none_iff.mp hv e he
    simp [heq] at this
  · exact ⟨v, rfl⟩

theorem get_none {allowed : List Str} (h : ∀ k ∈ o.map Prod.fst, k ∈ allowed)
    (hkey : lit key ∉ allowed) : get o key = none := by
  rcases hv : get o key with - | v
  · rfl
  · exact absurd (h _ (List.mem_map.mpr ⟨_, get_mem hv, rfl⟩)) hkey

theorem item_ok {v : Doc F} : item o key = .ok v ↔ get o key = some v := by
  unfold item
  split
  · next w h => rw [h, Except.ok.injEq, Option.some.injEq]
  · next h => exact iff_of_false nofun fun h' => nomatch h.symm.trans h'

theorem asText_ok {v : Doc F} {s : Str} : asText v = .ok s ↔ v = .str s := by
  cases v with
  | str t => rw [asText, Except.ok.injEq, Doc.str.injEq]
  | null | bool | int | float | list | obj => exact iff_of_false nofun nofun

private theorem letters : chr 'i' ≠ chr 'e' ∧ brace ∉ chr 'e' :: (lit "ntity" ++ [unbrace]) ∧
    chr 'x' ∉ chr 'e' :: (lit "ntity" ++ [unbrace]) ∧ chr 'x' ≠ brace ∧ chr 'x' ≠ unbrace := by
  decide +kernel

/-- Values without braces in the place of the placeholders leave no brace. -/
theorem Fillable.filled {s a b : Str} (h : Fillable (F := F) (.str s)) (ha : ∀ c ∈ a, ¬ IsBrace c)
    (hb : ∀ c ∈ b, ¬ IsBrace c) :
    ∀ c ∈ filledBy a b s, ¬ IsBrace c :=
  Filled.replaced (.inl rfl) letters.1 letters.2.1 h ha hb

/-- A placeholder that is there once the other is filled was there before. -/
theorem Fillable.named {s a : Str} (h : Fillable (F := F) (.str s)) (ha : ∀ c ∈ a, ¬ IsBrace c)
    (hin : token (lit "entity") <:+: replace (token (lit "ip")) a s) : token (lit "entity") <:+: s :=
  Filled.second_of_replaced (.inl rfl) h ha hin

/-- A text that is all of one kind once values of another are in it holds no placeholder. -/
theorem Fillable.of_all {s a b x y : Str} {P : CodePoint → Prop} (h : Fillable (F := F) (.str s))
    (ha : ∀ c ∈ a, ¬ IsBrace c) (ha' : ∃ c ∈ a, ¬ P c) (hb : ∃ c ∈ b, ¬ P c)
    (hall : ∀ c ∈ filledBy a b s, P c) :
    ∀ c ∈ filledBy x y s, P c :=
  Filled.of_replaced_all (.inl rfl) letters.1 letters.2.1 h ha ha' hb hall

/-- A text without braces holds no placeholder. -/
theorem fillable_of_plain {s : Str} (h : ∀ c ∈ s, ¬ IsBrace c) : Fillable (F := F) (.str s) := by
  induction s with
  | nil => exact .nil
  | cons c s ih =>
    obtain ⟨hc, hs⟩ := List.forall_mem_cons.mp h
    exact .char hc (ih hs)

/-- What stands under a name after a function was applied to every entry. -/
theorem each_lookup {α β : Type} {f : Str × α → Except Raised β} {l : List (Str × α)} {r : List (Str × β)}
    (h : Checks.each (fun e => do let b ← f e; .ok (e.1, b)) l = .ok r) : r.map Prod.fst = l.map Prod.fst ∧
      ∀ name b, r.lookup name = some b → ∃ a, l.lookup name = some a ∧ f (name, a) = .ok b := by
  have hpairs := each_ok.mp h
  clear h
  induction hpairs with
  | nil => exact ⟨rfl, nofun⟩
  | @cons e p l r he _ ih =>
    obtain ⟨b, hb, hp⟩ := bind_ok.mp he
    obtain rfl := Except.ok.inj hp
    obtain ⟨hmap, hlookup⟩ := ih
    refine ⟨by rw [List.map_cons, List.map_cons, hmap], fun name c hc => ?_⟩
    rw [List.lookup_cons] at hc ⊢
    split at hc
    · next heq =>
      obtain rfl := eq_of_beq heq
      exact ⟨e.2, by simp, Option.some.inj hc ▸ hb⟩
    · next hne =>
      obtain ⟨a, ha, hf⟩ := hlookup name c hc
      exact ⟨a, by simp [ha], hf⟩

theorem encoded_ok {text : Str} {b : List UInt8} (h : encoded text = .ok b) : ∀ c ∈ text, ¬ isSurrogate c := by
  unfold encoded encodeUtf8 at h
  split_ifs at h with hany
  exact fun c hc hs => hany (List.any_eq_true.mpr ⟨c, hc, hs⟩)

variable {place : Str}

theorem strings_ok {value : Doc F} {most longest : ℕ} {l : List (Doc F)} :
    strings place value most longest = .ok l ↔
      value = .list l ∧ l.length ≤ most ∧ ∀ v ∈ l, isText longest v := by
  cases value with
  | list p =>
    simp only [strings, bind_ok, ensure_ok]
    constructor
    · rintro ⟨-, hmost, -, hall, h⟩
      obtain rfl := Except.ok.inj h
      exact ⟨rfl, hmost, hall⟩
    · rintro ⟨h, hmost, hall⟩
      obtain rfl := Doc.list.inj h
      exact ⟨(), hmost, (), hall, rfl⟩
  | null | bool | int | float | str | obj =>
    refine iff_of_false (fun h => ?_) fun h => ?_
    · cases h
    · cases h.1

theorem slots_ok {place s probe : Str} (h : slots place s = .ok probe) : Fillable (F := F) (.str s) ∧
    probe = filledBy (lit "x") (lit "x") s := by
  obtain ⟨u, hplain, h⟩ := bind_ok.mp h
  obtain ⟨hopen, hclose⟩ := ensure_ok.mp hplain
  obtain rfl := Except.ok.inj h
  obtain ⟨hie, hbrace, hx, hopen', hclose'⟩ := letters
  refine ⟨filled_of_replaced (.inl rfl) hie hbrace (not_or.mpr ⟨hopen', hclose'⟩) hx fun c hc => ?_, rfl⟩
  rintro (rfl | rfl)
  · exact hopen hc
  · exact hclose hc

theorem among_ok {names : List Str} {v : Doc F} {e : Except Raised Raised} {s : Str} (h : among names v e = .ok s) :
    v = .str s ∧ s ∈ names := by
  obtain ⟨found, hfound, h⟩ := bind_ok.mp h
  cases found with
  | none =>
    obtain ⟨_, -, h⟩ := bind_ok.mp h
    cases h
  | some t =>
    obtain rfl := Except.ok.inj h
    cases v with
    | str r =>
      rw [member, Except.ok.injEq] at hfound
      split_ifs at hfound with hmem
      exact Option.some.inj hfound ▸ ⟨rfl, hmem⟩
    | null | bool | int | float | list | obj => cases hfound

theorem acyclic_ok {graph : List (Str × List Str)} {start : Str} {u : Unit} (h : acyclic graph start = .ok u) :
    ∃ done, Acyclic.Ordered (graph.lookup ·) done ∧ start ∈ done := by
  unfold acyclic at h
  split at h
  · cases h
  · cases h
  · cases h
  · next m hm =>
    obtain ⟨⟨-, hordered, -⟩, -, hstart⟩ := Acyclic.visit_ok hm ⟨rfl, trivial, List.disjoint_nil_left _⟩
    exact ⟨m.done, hordered, hstart⟩

theorem updated_ok {e : Str × Doc F} {u : Unit} (h : updated place e = .ok u) :
    Fillable e.2 ∧ (FIELD_LIMITS.lookup e.1).isSome := by
  unfold updated at h
  split at h
  · cases h
  · next limit hlimit =>
    simp only [bind_ok] at h
    obtain ⟨_, -, s, hs, probe, hprobe, -⟩ := h
    rw [asText_ok.mp hs, hlimit]
    exact ⟨(slots_ok hprobe).1, rfl⟩

variable [Python]

theorem keys_ok {value : Doc F} {allowed required : List Str} {o : Entries F} :
    keys place value allowed required = .ok o ↔
      value = .obj o ∧ (∀ k ∈ o.map Prod.fst, k ∈ allowed) ∧ ∀ k ∈ required, k ∈ o.map Prod.fst := by
  cases value with
  | obj p =>
    simp only [keys, bind_ok, noneOf_ok, List.filter_eq_nil_iff, decide_eq_true_eq, not_not]
    constructor
    · rintro ⟨-, ha, -, hr, h⟩
      obtain rfl := Except.ok.inj h
      exact ⟨rfl, ha, hr⟩
    · rintro ⟨h, ha, hr⟩
      obtain rfl := Doc.obj.inj h
      exact ⟨(), ha, (), hr, rfl⟩
  | null | bool | int | float | str | list =>
    refine iff_of_false (fun h => ?_) fun h => ?_
    · cases h
    · cases h.1

/-- A test of a stored playbook. -/
structure Condition (o : Entries F) : Prop where
  phrase : ∀ key ∈ ["contains", "not_contains", "number_after"], ∀ v ∈ get o key, Fillable v
  vendor : ∀ v ∈ get o "vendor", isText 200 v
  bound : ∀ key ∈ ["above", "below"], ∀ v ∈ get o key, isNumber v

theorem condition_ok {cond : Doc F} {u : Unit} (h : condition place cond = .ok u) :
    ∃ o, cond = .obj o ∧ Condition o := by
  simp only [condition, bind_ok, ensure_ok] at h
  obtain ⟨o, ho, -, -, texts, htexts, probes, hprobes, bounds, hbounds, -⟩ := h
  refine ⟨o, (keys_ok.mp ho).1, ⟨fun key hkey v hv => ?_, ?_, fun key hkey => ?_⟩⟩
  · obtain ⟨probe, -, hslots⟩ := each_mem hprobes hkey
    rw [Option.mem_def.mp hv] at hslots
    obtain ⟨s, hs, hprobe⟩ := bind_ok.mp hslots
    rw [asText_ok.mp hs]
    exact (slots_ok hprobe).1
  · obtain ⟨_, -, hvendor⟩ := each_mem htexts (a := "vendor") (by simp)
    exact ensure_ok.mp hvendor
  · obtain ⟨_, -, hbound⟩ := each_mem hbounds hkey
    exact ensure_ok.mp hbound

/-- What a step of a stored playbook does. -/
inductive Work : Doc F → Prop
  | reach : Work (.obj [(lit "reach", .obj [])])
  | ssh {args : Entries F} {s : Str} : get args "oids" = none → get args "command" = some (.str s) →
      Fillable (F := F) (.str s) →
      (∃ sent, check (filledBy (lit "x") (lit "x") s) (lit "root") =
        .ok sent) →
      Work (.obj [(lit "ssh", .obj args)])
  | snmp_get {args : Entries F} {l : List (Doc F)} : get args "command" = none → get args "oids" = some (.list l) →
      (∀ v ∈ l, isText 200 v) → (∀ o ∈ texts l, (dotted o).isSome) → Work (.obj [(lit "snmp_get", .obj args)])

theorem command_ok {v : Doc F} {u : Unit} (h : command place v = .ok u) :
    ∃ s, v = .str s ∧ Fillable (F := F) (.str s) ∧
      ∃ sent, check (filledBy (lit "x") (lit "x") s) (lit "root") =
        .ok sent := by
  cases v with
  | str s =>
    obtain ⟨probe, hprobe, h⟩ := bind_ok.mp h
    obtain ⟨hfill, rfl⟩ := slots_ok (F := F) hprobe
    refine ⟨s, rfl, hfill, ?_⟩
    split at h
    · next sent hcheck => exact ⟨sent, hcheck⟩
    · cases h
    · cases h
  | null | bool | int | float | list | obj => cases h

theorem action_ok {step : Entries F} {u : Unit} (h : action place step = .ok u) :
    ∀ v ∈ get step "do", Work v := by
  intro v hv
  rw [action, Option.mem_def.mp hv] at h
  simp only [bind_ok, ensure_ok] at h
  obtain ⟨work, hwork, -, hone, h⟩ := h
  obtain ⟨rfl, hallowed, -⟩ := keys_ok.mp hwork
  obtain ⟨⟨name, args⟩, rfl⟩ := List.length_eq_one_iff.mp hone
  dsimp only at h
  split_ifs at h with hreach hssh
  · subst hreach
    obtain ⟨o, ho, -⟩ := bind_ok.mp h
    obtain ⟨rfl, hnone, -⟩ := keys_ok.mp ho
    obtain rfl : o = [] := by
      cases o with
      | nil => rfl
      | cons e o => exact absurd (hnone e.1 List.mem_cons_self) List.not_mem_nil
    exact .reach
  · subst hssh
    simp only [bind_ok, ensure_ok] at h
    obtain ⟨o, ho, c, hc, _, hcommand, -⟩ := h
    obtain ⟨rfl, hkeys, -⟩ := keys_ok.mp ho
    obtain ⟨s, rfl, hfill, hcheck⟩ := command_ok hcommand
    exact .ssh (get_none hkeys (by decide)) (item_ok.mp hc) hfill hcheck
  · have hname : name = lit "snmp_get" := by
      have := hallowed name (by simp)
      simp only [ACTIONS, List.mem_cons, List.not_mem_nil, or_false] at this
      tauto
    subst hname
    simp only [bind_ok, ensure_ok] at h
    obtain ⟨o, ho, c, hc, l, hl, -, hdotted⟩ := h
    obtain ⟨rfl, hkeys, -⟩ := keys_ok.mp ho
    obtain ⟨rfl, -, htext⟩ := strings_ok.mp hl
    refine .snmp_get (get_none hkeys (by decide)) (item_ok.mp hc) htext fun o ho => ?_
    obtain ⟨n, hn, -⟩ := hdotted o ho
    exact Option.isSome_of_mem hn

/-- A branch of a stored playbook, and the step it leads to. -/
structure Branch (names : List Str) (v : Doc F) (target : Str) : Prop where
  shape : ∃ o, v = .obj o ∧ get o "go" = some (.str target) ∧ ∀ c ∈ get o "if", ∃ o, c = .obj o ∧ Condition o
  named : target ∈ names

/-- A leaf of a stored playbook: its texts are ones that can be filled, each of a field. -/
structure Leaf (o : Entries F) : Prop where
  remark : ∀ key ∈ ["note", "solution"], ∀ v ∈ get o key, Fillable v
  update : ∀ v ∈ get o "update", ∃ u, v = .obj u ∧ ∀ e ∈ u, Fillable e.2 ∧ (FIELD_LIMITS.lookup e.1).isSome

theorem end_ok {step : Entries F} {targets : List Str} (h : end_ place step = .ok targets) :
    targets = [] ∧ Leaf step := by
  simp only [end_, bind_ok] at h
  obtain ⟨kind, -, _, hending, r, hremarks, h⟩ := h
  refine ⟨(Except.ok.inj h).symm, fun key hkey v hv => ?_, fun v hv => ?_⟩
  · obtain ⟨_, -, hremark⟩ := each_mem hremarks hkey
    rw [Playbook.remark, Option.mem_def.mp hv] at hremark
    simp only [bind_ok] at hremark
    obtain ⟨_, -, s, hs, probe, hprobe, -⟩ := hremark
    rw [asText_ok.mp hs]
    exact (slots_ok hprobe).1
  · unfold ending at hending
    split_ifs at hending
    · simp only [bind_ok] at hending
      obtain ⟨o, ho, -⟩ := hending
      have hnone : get o "update" = none := get_none (keys_ok.mp ho).2.1 (by decide)
      rw [← Doc.obj.inj (keys_ok.mp ho).1, Option.mem_def.mp hv] at hnone
      cases hnone
    · simp only [bind_ok] at hending
      obtain ⟨-, -, _, -, -, -, _, -, w, hw, u, hu, r, hr, -⟩ := hending
      have hvw : v = w := Option.some.inj ((Option.mem_def.mp hv).symm.trans (item_ok.mp hw))
      refine ⟨u, hvw.trans (keys_ok.mp hu).1, fun e he => ?_⟩
      obtain ⟨_, -, hupdated⟩ := each_mem hr he
      exact updated_ok hupdated
    · simp only [bind_ok] at hending
      obtain ⟨o, ho, -⟩ := hending
      have hnone : get o "update" = none := get_none (keys_ok.mp ho).2.1 (by decide)
      rw [← Doc.obj.inj (keys_ok.mp ho).1, Option.mem_def.mp hv] at hnone
      cases hnone

/-- The branches of a stored playbook's step: the last one has no test. -/
structure Branches (names : List Str) (bs : List (Doc F)) (targets : List Str) : Prop where
  each : List.Forall₂ (Branch names) bs targets
  default_ : ∃ o, .obj o ∈ bs ∧ get o "if" = none

/-- A step of a stored playbook, and the steps that its branches lead to. -/
inductive Step (names : List Str) : Doc F → List Str → Prop
  | leaf {o : Entries F} : (get o "end").isSome → Leaf o → Step names (.obj o) []
  | node {o : Entries F} {bs : List (Doc F)} {targets : List Str} : get o "end" = none →
      (∀ v ∈ get o "do", Work v) → get o "next" = some (.list bs) → Branches names bs targets →
      Step names (.obj o) targets

theorem Step.targets {names targets : List Str} {v : Doc F} (h : Step names v targets) : targets ⊆ names := by
  cases h with
  | leaf => exact List.nil_subset names
  | node _ _ _ hbranches =>
    intro t ht
    obtain ⟨b, -, hb⟩ := of_mem_right hbranches.each ht
    exact hb.named

variable [PyFloat F]

theorem branch_ok {names : List Str} {last : ℕ} {b : Doc F × ℕ} {target : Str}
    (h : branch place names last b = .ok target) : Branch names b.1 target := by
  simp only [branch, bind_ok] at h
  obtain ⟨o, ho, _, hif, go, hgo, h⟩ := h
  obtain ⟨rfl, hmem⟩ := among_ok h
  refine ⟨⟨o, (keys_ok.mp ho).1, item_ok.mp hgo, fun c hc => ?_⟩, hmem⟩
  rw [tested, Option.mem_def.mp hc] at hif
  exact condition_ok hif

theorem branches_ok {names : List Str} {step : Entries F} {targets : List Str}
    (h : branches place names step = .ok targets) :
    ∃ bs, get step "next" = some (.list bs) ∧ Branches names bs targets := by
  obtain ⟨next, hnext, h⟩ := bind_ok.mp h
  split at h
  · next bs =>
    simp only [bind_ok] at h
    obtain ⟨_, -, targets', hall, h⟩ := h
    split at h
    · cases h
    · next b hb =>
      simp only [bind_ok, ensure_ok] at h
      obtain ⟨has, hhas, _, rfl, h⟩ := h
      obtain rfl := Except.ok.inj h
      refine ⟨bs, item_ok.mp hnext, ?_, ?_⟩
      · have hpairs := each_ok.mp hall
        have hfst : List.Forall₂ (Branch names) (bs.zipIdx.map Prod.fst) targets' :=
          List.forall₂_map_left_iff.mpr (hpairs.imp fun _ _ => branch_ok)
        rwa [List.zipIdx_map_fst] at hfst
      · cases b with
        | obj o =>
          refine ⟨o, List.mem_of_getLast? hb, ?_⟩
          simpa [within] using hhas
        | null | bool | int | float | str | list => cases hhas
  · cases h

theorem step_ok {name : Str} {v : Doc F} {names targets : List Str} (h : step name v names = .ok targets) :
    Step names v targets := by
  cases v with
  | obj o =>
    simp only [step] at h
    split_ifs at h with hend
    · obtain ⟨rfl, hleaf⟩ := end_ok h
      exact .leaf hend hleaf
    · simp only [bind_ok] at h
      obtain ⟨p, hp, _, haction, h⟩ := h
      obtain rfl := Doc.obj.inj (keys_ok.mp hp).1
      obtain ⟨bs, hbs, hbranches⟩ := branches_ok h
      exact .node (Option.not_isSome_iff_eq_none.mp hend) (action_ok haction) hbs hbranches
  | null | bool | int | float | str | list => cases h

/-- A stored playbook, by its entries, its steps and the step it starts at. -/
structure Stored (doc : Doc F) (o steps : Entries F) (start : Str) : Prop where
  document : doc = .obj o
  timeout : (asInt ((get o "timeout_s").getD (.int 300))).isSome
  starts : get o "start" = some (.str start)
  holds : get o "steps" = some (.obj steps)
  named : ∀ e ∈ steps, NAME e.1
  ordered : ∃ (graph : List (Str × List Str)) (done : List Str), Acyclic.Ordered (graph.lookup ·) done ∧ start ∈ done ∧
    done ⊆ steps.map Prod.fst ∧ ∀ name targets, graph.lookup name = some targets →
      ∃ v, steps.lookup name = some v ∧ Step (steps.map Prod.fst) v targets
  chars : Chars (fun c => ¬ isSurrogate c) doc

/-- What the check lets through is a stored playbook, and comes back as it was. -/
theorem validate_ok {doc doc' : Doc F} (h : validate doc = .ok doc') :
    doc' = doc ∧ ∃ o steps start, Stored doc o steps start := by
  simp only [validate, bind_ok, ensure_ok] at h
  obtain ⟨o, ho, _, -, _, -, _, -, _, -, _, -, _, ⟨timeout, htimeout, -⟩, v, hv, h⟩ := h
  split at h
  · next steps =>
    simp only [bind_ok, ensure_ok, noneOf_ok] at h
    obtain ⟨_, -, _, hnames, w, hw, start, hstart, graph, hgraph, _, hacyclic, text, htext, b, hb, _, -, h⟩ := h
    obtain ⟨rfl, -⟩ := among_ok hstart
    obtain ⟨hkeys, hlookup⟩ := each_lookup hgraph
    obtain ⟨done, hordered, hmem⟩ := acyclic_ok hacyclic
    obtain ⟨_, -, _, -, hraw⟩ := by simpa only [canonical, bind_ok, ensure_ok] using htext
    obtain rfl := Except.ok.inj hraw
    refine ⟨(Except.ok.inj h).symm, o, steps, start, (keys_ok.mp ho).1, Option.isSome_of_mem htimeout,
      item_ok.mp hw, item_ok.mp hv, fun e he => ?_,
      ⟨graph, done, hordered, hmem, fun name hname => ?_, fun name targets ht => ?_⟩, ?_⟩
    · have := List.filter_eq_nil_iff.mp hnames e.1 (List.mem_map_of_mem he)
      simpa using this
    · obtain ⟨targets, htargets⟩ := Option.isSome_iff_exists.mp (hordered.node hname)
      obtain ⟨l, r, heq, -⟩ := List.lookup_eq_some_iff.mp htargets
      rw [← hkeys, heq]
      simp
    · obtain ⟨v, hsteps, hv⟩ := hlookup name targets ht
      exact ⟨v, hsteps, step_ok hv⟩
    · exact chars_sorted doc (chars_rawText _ (encoded_ok hb))
  · cases h

end NetCoreNoc.Noc.Playbook

import Mathlib
import NetCoreNoc.Json.Whole
import NetCoreNoc.Noc.Steps

/-! A stored playbook runs to a conclusion: every walk of one ends, at a leaf unless the situation, the clock or a
person stops it before. -/
namespace NetCoreNoc.Noc.Playbook

open Json Text Checks Templates

section
variable {F : Type} [Python] [PyFloat F] [PyOrder F]

/-- What a visit of a walk is: a step of the playbook, left through the first of its branches that was taken. -/
structure Visit.Sound (steps : Entries F) (facts : Facts) (v : Visit) : Prop where
  branch : ∃ o bs, steps.lookup v.name = some (.obj o) ∧ get o "end" = none ∧ get o "next" = some (.list bs) ∧
    Chosen v.outcome facts.vendor facts.slots bs (v.index, v.go)
  sent : ∀ s ∈ v.sent, s.Sound

/-- A test of the step names a slot that the situation has no plain value for. -/
def Undecidable (steps : Entries F) (facts : Facts) (name : Str) : Prop :=
  ∃ o bs b cond, steps.lookup name = some (.obj o) ∧ get o "next" = some (.list bs) ∧ .obj b ∈ bs ∧
    get b "if" = some (.obj cond) ∧ UnplainTest facts.slots cond

/-- What a walk concludes at a step, in a round. -/
def Concluded (timeout : ℤ) (steps : Entries F) (facts : Facts) (t : Turn) (name : Str) (leaf : Entries F) :
    Conclusion → Prop
  | .filled => ∃ o, steps.lookup name = some (.obj o) ∧ (get o "end").isSome ∧ fill o facts.slots = .ok leaf
  | .unfilled => ∃ o message, steps.lookup name = some (.obj o) ∧ (get o "end").isSome ∧
      fill o facts.slots = .error (.CommandError message) ∧
      leaf = queued (lit "Automated checks reached “" ++ name ++ lit "”: " ++ message)
  | .late => (timeout : ℚ) ≤ t.elapsed ∧ leaf = [(lit "end", .str (lit "timeout")), (lit "at", .str name)]
  | .taken => t.auto = false ∧ leaf = [(lit "end", .str (lit "taken"))]
  | .undecided => Undecidable steps facts name ∧
      ∃ message, leaf = queued (lit "Automated checks could not decide at “" ++ name ++ lit "”: " ++ message)

/-- One round at a step of a stored playbook: a conclusion, or a visit that goes to one of the step's targets. -/
theorem turn_ok (timeout : ℤ) {steps : Entries F} {facts : Facts} {t : Turn} {name : Str} {v : Doc F}
    {names targets : List Str} (hv : steps.lookup name = some v) (hstep : Step names v targets)
    (hchars : Chars (fun c => ¬ isSurrogate c) v) (hname : storable name) (hhost : storable facts.host)
    (ht : t.outcome.Storable) :
    (∃ leaf how, turn timeout steps facts t name = .ok (.ended leaf how) ∧
      Concluded timeout steps facts t name leaf how) ∨
      ∃ visit, turn timeout steps facts t name = .ok (.goes visit) ∧ visit.name = name ∧ visit.go ∈ targets ∧
        visit.Sound steps facts := by
  cases hstep with
  | @leaf o hend hleaf =>
    refine .inl ?_
    have hturn : turn timeout steps facts t name = conclude facts name o := by
      rw [turn, hv]
      exact if_pos hend
    rw [hturn]
    unfold conclude
    rcases hfill : fill o facts.slots with e | leaf
    · have herror := only_fill hleaf e hfill
      cases e with
      | CommandError message => exact ⟨_, .unfilled, rfl, o, message, hv, hend, hfill, rfl⟩
      | PlaybookError | KeyError | IndexError | TypeError | AttributeError | ValueError | StopIteration
        | UnicodeEncodeError | RecursionError | DataError => cases herror
    · exact ⟨leaf, .filled, rfl, o, hv, hend, hfill⟩
  | @node o bs _ hend hwork hnext hbranches =>
    have hturn : turn timeout steps facts t name =
        if (timeout : ℚ) - t.elapsed ≤ 0 then
          .ok (.ended [(lit "end", .str (lit "timeout")), (lit "at", .str name)] .late)
        else if ¬ t.auto then .ok (.ended [(lit "end", .str (lit "taken"))] .taken)
        else decide_ facts name o t := by
      rw [turn, hv]
      exact if_neg (by rw [hend]; exact Bool.false_ne_true)
    rw [hturn]
    split_ifs with hlate htaken
    · exact .inl ⟨_, .late, rfl, sub_nonpos.mp hlate, rfl⟩
    · obtain ⟨⟨outcome, sent⟩, hperform, hacted⟩ := perform_ok hwork hchars hname hhost ht
      obtain ⟨row, hrow⟩ : ∃ row, traced name outcome = .ok row := traced_ok hacted.outcome
      have hbranch : ∀ b ∈ bs, ∃ target ∈ targets, Branch names b target := fun b hb =>
        of_mem_right hbranches.each.flip hb
      unfold decide_
      rw [hperform, ok_bind]
      dsimp only
      rw [hrow, ok_bind, item_ok.mpr hnext, ok_bind]
      dsimp only
      rcases hchoose : choose outcome facts.vendor facts.slots bs with e | ⟨i, target⟩
      · obtain ⟨b, hb, p, cond, rfl, hif, herror, hunplain⟩ :=
          only_choose (fun b hb => (hbranch b hb).imp fun _ h => h.2) hbranches.default_ e hchoose
        cases e with
        | CommandError message =>
          exact .inl ⟨_, .undecided, rfl, ⟨o, bs, p, cond, hv, hnext, hb, hif, hunplain⟩, message, rfl⟩
        | PlaybookError | KeyError | IndexError | TypeError | AttributeError | ValueError | StopIteration
          | UnicodeEncodeError | RecursionError | DataError => cases herror
      · have hchosen := choose_ok hchoose
        refine .inr ⟨_, rfl, rfl, ?_, ⟨o, bs, hv, hend, hnext, hchosen⟩, hacted.sent⟩
        obtain ⟨b, hb, -, hgo⟩ := hchosen.taken
        obtain ⟨s, hs, hbs⟩ := hbranch b (List.mem_of_getElem? hb)
        obtain rfl : s = target := Except.ok.inj ((go_ok hbs).symm.trans hgo)
        exact hs
    · exact .inl ⟨_, .taken, rfl, Bool.eq_false_iff.mpr htaken, rfl⟩

/-- What a walk from a step is: a path along the branches taken, to a step at which it concludes. -/
structure Walked.Sound (timeout : ℤ) (steps : Entries F) (facts : Facts) (env : ℕ → Turn) (start : Str)
    (w : Walked F) : Prop where
  visits : ∀ v ∈ w.visits, v.Sound steps facts
  path : w.visits.map (·.name) ++ [w.at_] = start :: w.visits.map (·.go)
  concluded : Concluded timeout steps facts (env w.visits.length) w.at_ w.leaf w.how

/-- By the order in which every branch leads on: the rounds end, and the steps they pass are in this order. -/
theorem rounds_ok (timeout : ℤ) {steps : Entries F} {facts : Facts} {graph : List (Str × List Str)}
    (hgraph : ∀ name targets, graph.lookup name = some targets →
      ∃ v, steps.lookup name = some v ∧ Step (steps.map Prod.fst) v targets)
    (hnamed : ∀ e ∈ steps, NAME e.1) (hchars : ∀ e ∈ steps, Chars (fun c => ¬ isSurrogate c) e.2)
    (hhost : storable facts.host) {l : List Str} (hl : Acyclic.Ordered (graph.lookup ·) l) {n : ℕ} (hn : l.length ≤ n)
    {env : ℕ → Turn} (henv : ∀ i, (env i).outcome.Storable) {name : Str} (hname : name ∈ l) :
    ∃ w, rounds timeout steps facts n env name = .ok (some w) ∧ w.Sound timeout steps facts env name ∧
      (w.visits.map (·.name) ++ [w.at_]).Sublist l := by
  induction l generalizing n env name with
  | nil => cases hname
  | cons a l ih =>
    obtain ⟨⟨targets, hlookup, htargets⟩, -, hl⟩ := hl
    rw [List.length_cons] at hn
    rcases List.mem_cons.mp hname with rfl | hname
    · obtain ⟨m, rfl⟩ : ∃ m, n = m + 1 := ⟨n - 1, by omega⟩
      obtain ⟨v, hv, hstep⟩ := hgraph name targets hlookup
      obtain ⟨p, r, heq, -⟩ := List.lookup_eq_some_iff.mp hv
      have hmem : (name, v) ∈ steps := heq ▸ by simp
      rcases turn_ok timeout hv hstep (hchars _ hmem) (storable_name (hnamed _ hmem)) hhost (henv 0) with
        ⟨leaf, how, hturn, hconcluded⟩ | ⟨visit, hturn, rfl, hgo, hvisit⟩
      · refine ⟨⟨[], name, leaf, how⟩, ?_, ⟨nofun, rfl, hconcluded⟩, ?_⟩
        · rw [rounds, hturn]
          rfl
        · exact (List.nil_sublist l).cons_cons name
      · obtain ⟨w, hw, hsound, hsub⟩ := ih hl (Nat.le_of_succ_le_succ hn) (fun i => henv (i + 1)) (htargets hgo)
        refine ⟨{ w with visits := visit :: w.visits }, ?_, ⟨?_, ?_, hsound.concluded⟩, ?_⟩
        · rw [rounds, hturn, ok_bind]
          dsimp only
          rw [hw, ok_bind]
          rfl
        · exact List.forall_mem_cons.mpr ⟨hvisit, hsound.visits⟩
        · rw [List.map_cons, List.cons_append, hsound.path, List.map_cons]
        · exact hsub.cons_cons visit.name
    · obtain ⟨w, hw, hsound, hsub⟩ := ih hl (Nat.le_of_succ_le hn) henv hname
      exact ⟨w, hw, hsound, hsub.cons a⟩

/-- A walk of a stored playbook ends, in as many rounds as it has steps. -/
theorem walk_ok {doc : Doc F} {o steps : Entries F} {start : Str} (h : Stored doc o steps start) {timeout : ℤ}
    (htimeout : asInt ((get o "timeout_s").getD (.int 300)) = some timeout) {facts : Facts}
    (hhost : storable facts.host) {env : ℕ → Turn} (henv : ∀ i, (env i).outcome.Storable) :
    ∃ w, walk steps.length doc facts env = .ok (some w) ∧ w.Sound timeout steps facts env start ∧
      w.visits.length < steps.length ∧ (w.visits.map (·.name) ++ [w.at_]).Nodup := by
  obtain ⟨rfl, -, hstart, hsteps, hnamed, ⟨graph, done, hordered, hmem, hsub, hgraph⟩, hchars⟩ := h
  have hlength : done.length ≤ steps.length := by
    have := (hordered.nodup.subperm hsub).length_le
    rwa [List.length_map] at this
  have hall : ∀ e ∈ steps, Chars (fun c => ¬ isSurrogate c) e.2 := fun e he =>
    (entriesChars_iff.mp (chars_get hchars hsteps) e he).2
  obtain ⟨w, hw, hsound, hpath⟩ := rounds_ok timeout hgraph hnamed hall hhost hordered hlength henv hmem
  refine ⟨w, ?_, hsound, ?_, hpath.nodup hordered.nodup⟩
  · rw [walk, entries, ok_bind, htimeout]
    dsimp only
    rw [item_ok.mpr hstart, ok_bind, asText, ok_bind, item_ok.mpr hsteps, ok_bind, entries, ok_bind, hw]
  · have := hpath.length_le
    simp only [List.length_append, List.length_map, List.length_singleton] at this
    omega

/-- A document whose names have a hash and that has a text is checked, or refused with a `PlaybookError`. One that is
stored runs, whatever its situation, to a conclusion within as many rounds as it has steps: by the first branch that is
taken at each step, each once, and every command that goes out passed the check with its placeholders filled. -/
theorem playbook_concludes (doc : Doc F) :
    (Hashable doc → Writable doc →
      validate doc = .ok doc ∨ ∃ message, validate doc = .error (.PlaybookError message)) ∧
    ((validate doc).isOk → ∃ o steps start timeout, doc = .obj o ∧ get o "start" = some (.str start) ∧
      get o "steps" = some (.obj steps) ∧ asInt ((get o "timeout_s").getD (.int 300)) = some timeout ∧
      ∀ (facts : Facts) (env : ℕ → Turn), storable facts.host → (∀ i, (env i).outcome.Storable) →
        ∃ w, walk steps.length doc facts env = .ok (some w) ∧ w.Sound timeout steps facts env start ∧
          w.visits.length < steps.length ∧ (w.visits.map (·.name) ++ [w.at_]).Nodup) := by
  constructor
  · intro hhash hwrite
    rcases hv : validate doc with e | doc'
    · have herror := only_validate hhash hwrite e hv
      cases e with
      | PlaybookError message => exact .inr ⟨message, rfl⟩
      | CommandError | KeyError | IndexError | TypeError | AttributeError | ValueError | StopIteration
        | UnicodeEncodeError | RecursionError | DataError => cases herror
    · exact .inl (by rw [(validate_ok hv).1])
  · intro hok
    rcases hv : validate doc with e | doc'
    · rw [hv] at hok
      cases hok
    · obtain ⟨-, o, steps, start, hstored⟩ := validate_ok hv
      obtain ⟨timeout, htimeout⟩ := Option.isSome_iff_exists.mp hstored.timeout
      exact ⟨o, steps, start, timeout, hstored.document, hstored.starts, hstored.holds, htimeout,
        fun facts env hhost henv => walk_ok hstored htimeout hhost henv⟩

end

/-- ASCII letters, and a `repr` without escapes. -/
@[reducible] def ascii : Python where
  lower s := s.map fun c => if 65 ≤ c.val ∧ c.val ≤ 90 then c + 32 else c
  repr s := chr '\'' :: s.filter (fun c => c ≠ 0 ∧ !isSurrogate c) ++ [chr '\'']
  depth := 1000
  storable_repr s := by
    simp only [storable_append, storable_cons, Bool.and_eq_true]
    refine ⟨⟨by decide, storable_iff.mpr fun c hc => ?_⟩, by decide⟩
    simpa using (List.mem_filter.mp hc).2

/-- Whether the element's answer holds its address decides nothing: both branches go to the queue. -/
def asking : Entries Whole :=
  [(lit "ask", .obj [(lit "do", .obj [(lit "ssh", .obj [(lit "command", .str (lit "show port \x7bentity\x7d"))])]),
    (lit "next", .list [
      .obj [(lit "if", .obj [(lit "contains", .str (lit "\x7bip\x7d"))]), (lit "go", .str (lit "noc"))],
      .obj [(lit "go", .str (lit "noc"))]])]),
    (lit "noc", .obj [(lit "end", .str (lit "queue"))])]

def asks : Doc Whole :=
  .obj [(lit "name", .str (lit "echo")), (lit "match", .obj [(lit "vendors", .list [.str (lit "ciena")])]),
    (lit "start", .str (lit "ask")), (lit "steps", .obj asking)]

def calm : Turn := ⟨1, true, some (lit "view_only"), ⟨true, lit "up", lit "ran", lit "3"⟩⟩

private theorem asks_hashable : Hashable asks where
  start := by
    rintro o ho v hv
    obtain rfl := Doc.obj.inj ho
    obtain rfl : Doc.str (lit "ask") = v := Option.some.inj hv
    trivial
  step := by
    rintro o steps ho hsteps e he s hs
    obtain rfl := Doc.obj.inj ho
    obtain rfl : asking = steps := Doc.obj.inj (Option.some.inj hsteps)
    rcases List.mem_pair.mp he with rfl | rfl
    · obtain rfl := Doc.obj.inj hs
      refine ⟨nofun, nofun, fun bs hbs b hb v hv => ?_⟩
      obtain rfl := Doc.list.inj (Option.some.inj hbs)
      rcases List.mem_pair.mp hb with hb | hb <;> obtain rfl := Doc.obj.inj hb <;>
        obtain rfl : Doc.str (lit "noc") = v := Option.some.inj hv <;> trivial
    · obtain rfl := Doc.obj.inj hs
      exact ⟨nofun, nofun, nofun⟩

def port : Facts := ⟨some (lit "10.0.0.1"), none, some (lit "1/1")⟩

theorem playbook_concludes_asks : @validate _ ascii _ asks = .ok asks ∧
    ∃ w, @walk _ ascii _ _ 2 asks port (fun _ => calm) = .ok (some w) ∧
      @Walked.Sound _ ascii _ _ 300 asking port (fun _ => calm) (lit "ask") w ∧ w.visits.length < 2 := by
  obtain ⟨hvalid, hwalk⟩ := @playbook_concludes _ ascii _ _ asks
  have hwrite : @Writable _ ascii _ asks :=
    @Writable.mk _ ascii _ _ (by decide +kernel) (by decide +kernel) (by decide +kernel)
  have hok : (@validate _ ascii _ asks).isOk := by decide +kernel
  obtain ⟨o, steps, start, timeout, ho, hstart, hsteps, htimeout, hrun⟩ := hwalk hok
  obtain rfl := Doc.obj.inj ho
  obtain rfl : asking = steps := Doc.obj.inj (Option.some.inj hsteps)
  obtain rfl : lit "ask" = start := Doc.str.inj (Option.some.inj hstart)
  obtain rfl : 300 = timeout := Option.some.inj htimeout
  obtain ⟨w, hw, hsound, hlength, -⟩ :=
    hrun port (fun _ => calm) (by decide) fun _ => ⟨by decide, by decide, by decide⟩
  refine ⟨(hvalid asks_hashable hwrite).resolve_right ?_, w, hw, hsound, hlength⟩
  rintro ⟨message, hmessage⟩
  rw [hmessage] at hok
  cases hok

/-- A situation without an address is led neither to an end step nor through a branch. -/
theorem asks_undecided : (@validate _ ascii _ asks).isOk ∧
    ((@walk _ ascii _ _ 2 asks ⟨none, none, some (lit "1/1")⟩ fun _ => calm).map fun w =>
      w.map fun w => (w.visits.length, w.at_, w.how)) = .ok (some (0, lit "ask", .undecided)) ∧
    ¬ ∃ o, asking.lookup (lit "ask") = some (.obj o) ∧ (get o "end").isSome := by
  refine ⟨by decide +kernel, by decide +kernel, ?_⟩
  rintro ⟨o, ho, hend⟩
  obtain rfl := Doc.obj.inj (Option.some.inj ho)
  exact absurd hend (by decide)

end NetCoreNoc.Noc.Playbook

import Mathlib
import NetCoreNoc.Correlate.Evidence

/-! What a placement is decided on: the evidence about each situation added up, whatever order the
pairs were scored in, and what it takes for a situation to be merged. -/
namespace NetCoreNoc.Correlate

section Order

/-- Sorted by one key, two arrangements of one list are one. -/
theorem mergeSort_perm_eq {α κ : Type*} [LinearOrder κ] {l l' : List α} (key : α → κ)
    (hkey : ∀ a b, a ∈ l → b ∈ l → key a = key b → a = b) (h : l.Perm l') :
    l.mergeSort (key · ≤ key ·) = l'.mergeSort (key · ≤ key ·) := by
  have hsorted (l : List α) : (l.mergeSort (key · ≤ key ·)).Pairwise fun a b => key a ≤ key b := by
    refine (List.pairwise_mergeSort (fun a b c => ?_) (fun a b => ?_) l).imp of_decide_eq_true
    · simp only [decide_eq_true_eq]
      exact le_trans
    · simpa using le_total (key a) (key b)
  refine List.Perm.eq_of_pairwise (fun a b ha hb hab hba => ?_) (hsorted l) (hsorted l')
    ((List.mergeSort_perm l _).trans (h.trans (List.mergeSort_perm l' _).symm))
  exact hkey a b (List.mem_mergeSort.mp ha) (h.mem_iff.mpr (List.mem_mergeSort.mp hb)) (le_antisymm hab hba)

end Order

section Tally
variable {E : Type} [AddCommMonoid E]

/-- The situations that the pairs speak of, each with what is said. -/
def named (scored : List (Scored E)) (sit_of : Nat → Option Nat) : List (Nat × E) :=
  scored.filterMap fun p => (sit_of p.alarm_id).map fun sid => (sid, p.evidence)

/-- The sum and the count of what is said of a situation. -/
def about (pairs : List (Nat × E)) (sid : Nat) : E × Nat :=
  ((pairs.filter (·.1 = sid)).map fun p => (p.2, 1)).sum

theorem about_append (pairs : List (Nat × E)) (sid x : Nat) (e : E) :
    about (pairs ++ [(sid, e)]) x = about pairs x + if sid = x then (e, 1) else 0 := by
  rw [about, List.filter_append, List.map_append, List.sum_append]
  by_cases h : sid = x <;> simp [about, h]

theorem about_perm {pairs pairs' : List (Nat × E)} (h : pairs.Perm pairs') (sid : Nat) :
    about pairs sid = about pairs' sid := ((h.filter _).map _).sum_eq

theorem about_unnamed {pairs : List (Nat × E)} {sid : Nat} (h : ¬ ∃ p ∈ pairs, p.1 = sid) :
    about pairs sid = 0 := by
  rw [about, List.filter_eq_nil_iff.mpr fun p hp hd => h ⟨p, hp, of_decide_eq_true hd⟩]
  rfl

/-- A list of supports adds up the pairs: one entry for each situation named. -/
structure Tallies (l : List (Support E)) (pairs : List (Nat × E)) : Prop where
  nodup : (l.map (·.sid)).Nodup
  exact : ∀ s, s ∈ l ↔ (∃ p ∈ pairs, p.1 = s.sid) ∧ (s.sum, s.pairs) = about pairs s.sid

omit [AddCommMonoid E] in
private theorem sids_addSupport [Zero E] [Add E] (sid : Nat) (e : E) (l : List (Support E)) :
    (addSupport sid e l).map (·.sid) = if sid ∈ l.map (·.sid) then l.map (·.sid) else l.map (·.sid) ++ [sid] := by
  induction l with
  | nil => rfl
  | cons s l ih =>
    rw [addSupport]
    split
    · rename_i hs
      simp [hs]
    · rename_i hs
      simp only [List.map_cons, ih, List.mem_cons, Ne.symm hs, false_or]
      split <;> rfl

/-- What an entry is after a pair is added to the list. -/
private theorem mem_addSupport {l : List (Support E)} (hnd : (l.map (·.sid)).Nodup) (sid : Nat) (e : E)
    (s : Support E) : s ∈ addSupport sid e l ↔
      if s.sid = sid then (∃ t ∈ l, t.sid = sid ∧ (s.sum, s.pairs) = (t.sum, t.pairs) + (e, 1)) ∨
        sid ∉ l.map (·.sid) ∧ (s.sum, s.pairs) = (e, 1)
      else s ∈ l := by
  induction l with
  | nil =>
    obtain ⟨x, v, n⟩ := s
    simp only [addSupport, zero_add, List.mem_singleton, Support.mk.injEq]
    split <;> simp_all
  | cons t l ih =>
    obtain ⟨x, v, n⟩ := s
    rw [List.map_cons, List.nodup_cons] at hnd
    have hfresh : ∀ u ∈ l, u.sid ≠ t.sid := fun u hu he => hnd.1 (he ▸ List.mem_map_of_mem hu)
    rw [addSupport]
    split
    · rename_i ht
      subst ht
      have hnot : ∀ v n, (⟨t.sid, v, n⟩ : Support E) ∉ l := fun v n hm => hfresh _ hm rfl
      rw [List.mem_cons, List.mem_cons]
      by_cases hx : x = t.sid
      · subst hx
        simp only [hnot, or_false, if_true, Support.mk.injEq, true_and, List.mem_cons,
          exists_eq_or_imp, List.map_cons, true_or, not_true, false_and, Prod.mk.injEq, Prod.mk_add_mk]
        constructor
        · exact fun h => .inl h
        · rintro (h | ⟨u, hu, he, -⟩)
          · exact h
          · exact absurd he (hfresh u hu)
      · simp only [if_neg hx]
        constructor
        · rintro (h | h)
          · exact absurd (congrArg Support.sid h) hx
          · exact .inr h
        · rintro (h | h)
          · exact absurd (congrArg Support.sid h) hx
          · exact .inr h
    · rename_i ht
      rw [List.mem_cons, ih hnd.2]
      by_cases hx : x = sid
      · have hxt : ⟨x, v, n⟩ ≠ t := fun he => ht ((congrArg Support.sid he).symm.trans hx)
        simp only [hx, if_true, List.mem_cons, exists_eq_or_imp, ht, false_and, false_or,
          List.map_cons, Ne.symm ht]
        simp only [← hx, hxt, false_or]
      · simp only [if_neg hx, List.mem_cons]

theorem Tallies.add {l : List (Support E)} {pairs : List (Nat × E)} (h : Tallies l pairs) (sid : Nat)
    (e : E) : Tallies (addSupport sid e l) (pairs ++ [(sid, e)]) := by
  have hnamed : sid ∈ l.map (·.sid) ↔ ∃ p ∈ pairs, p.1 = sid := by
    constructor
    · intro hm
      obtain ⟨t, ht, rfl⟩ := List.mem_map.mp hm
      exact ((h.exact t).mp ht).1
    · intro hp
      exact List.mem_map.mpr ⟨⟨sid, (about pairs sid).1, (about pairs sid).2⟩, (h.exact _).mpr ⟨hp, rfl⟩, rfl⟩
  refine ⟨?_, fun s => ?_⟩
  · rw [sids_addSupport]
    split
    · exact h.nodup
    · rename_i hn
      rw [List.nodup_append]
      refine ⟨h.nodup, List.nodup_singleton sid, fun a ha b hb => ?_⟩
      obtain rfl := List.mem_singleton.mp hb
      exact fun he => hn (he ▸ ha)
  · rw [mem_addSupport h.nodup, about_append]
    split
    · rename_i hs
      subst hs
      rw [if_pos rfl]
      have hlast : ∃ p ∈ pairs ++ [(s.sid, e)], p.1 = s.sid :=
        ⟨(s.sid, e), List.mem_append_right _ List.mem_cons_self, rfl⟩
      constructor
      · rintro (⟨t, ht, hts, hv⟩ | ⟨hn, hv⟩)
        · exact ⟨hlast, hv.trans (congrArg (· + (e, 1)) (hts ▸ ((h.exact t).mp ht).2))⟩
        · rw [about_unnamed fun hp => hn (hnamed.mpr hp), zero_add]
          exact ⟨hlast, hv⟩
      · rintro ⟨-, hv⟩
        by_cases hm : s.sid ∈ l.map (·.sid)
        · obtain ⟨t, ht, hts⟩ := List.mem_map.mp hm
          refine .inl ⟨t, ht, hts, hv.trans ?_⟩
          rw [((h.exact t).mp ht).2, hts]
        · rw [about_unnamed fun hp => hm (hnamed.mpr hp), zero_add] at hv
          exact .inr ⟨hm, hv⟩
    · rename_i hs
      rw [if_neg (Ne.symm hs), add_zero, h.exact]
      refine and_congr_left fun _ => ⟨fun ⟨p, hp, he⟩ => ⟨p, List.mem_append_left _ hp, he⟩, ?_⟩
      rintro ⟨p, hp, he⟩
      rcases List.mem_append.mp hp with hp | hp
      · exact ⟨p, hp, he⟩
      · obtain rfl := List.mem_singleton.mp hp
        exact absurd he.symm hs

/-- What the loop over the pairs adds up to. -/
theorem supportOf_tallies (scored : List (Scored E)) (sit_of : Nat → Option Nat) :
    Tallies (supportOf scored sit_of) (named scored sit_of) := by
  induction scored using List.reverseRecOn with
  | nil => exact ⟨List.nodup_nil, fun s => by simp [supportOf, named]⟩
  | append_singleton scored p ih =>
    cases hp : sit_of p.alarm_id with
    | none =>
      have hs : supportOf (scored ++ [p]) sit_of = supportOf scored sit_of := by simp [supportOf, hp]
      have hn : named (scored ++ [p]) sit_of = named scored sit_of := by simp [named, hp]
      rw [hs, hn]
      exact ih
    | some sid =>
      have hs : supportOf (scored ++ [p]) sit_of = addSupport sid p.evidence (supportOf scored sit_of) := by
        simp [supportOf, hp]
      have hn : named (scored ++ [p]) sit_of = named scored sit_of ++ [(sid, p.evidence)] := by simp [named, hp]
      rw [hs, hn]
      exact ih.add sid p.evidence

/-- Two arrangements of the same pairs add up to the same entries. -/
theorem Tallies.perm {l l' : List (Support E)} {pairs pairs' : List (Nat × E)} (h : Tallies l pairs)
    (h' : Tallies l' pairs') (hp : pairs.Perm pairs') : l.Perm l' := by
  refine (List.perm_ext_iff_of_nodup (List.Nodup.of_map _ h.nodup) (List.Nodup.of_map _ h'.nodup)).mpr ?_
  intro s
  rw [h.exact, h'.exact, about_perm hp]
  exact and_congr_left fun _ => exists_congr fun p => and_congr_left fun _ => hp.mem_iff

end Tally

section Place
variable {E : Type} [Field E] [LinearOrder E]

/-- What the entries are ranked by. -/
def Support.key (s : Support E) : Eᵒᵈ ×ₗ ℕᵒᵈ ×ₗ ℕ :=
  toLex (OrderDual.toDual s.mean, toLex (OrderDual.toDual s.pairs, s.sid))

theorem before_iff (a b : Support E) : a.before b = true ↔ a.key < b.key := by
  simp only [Support.before, Support.key, Prod.Lex.toLex_lt_toLex, OrderDual.toDual_lt_toDual,
    OrderDual.toDual_inj, beq_iff_eq]
  by_cases hm : a.mean = b.mean <;> by_cases hp : a.pairs = b.pairs <;> simp [hm, hp]

theorem ranked_eq (scored : List (Scored E)) (sit_of : Nat → Option Nat) :
    ranked scored sit_of = (supportOf scored sit_of).mergeSort (Support.key · ≤ Support.key ·) := by
  have hle : (fun a b : Support E => !b.before a) = fun a b => decide (a.key ≤ b.key) := by
    funext a b
    rw [Bool.eq_iff_iff, Bool.not_eq_true', Bool.eq_false_iff, ne_eq, before_iff, not_lt, decide_eq_true_iff]
  rw [ranked, hle]

variable {scored scored' : List (Scored E)}

theorem ranked_perm (h : scored.Perm scored')
    (sit_of : Nat → Option Nat) : ranked scored sit_of = ranked scored' sit_of := by
  rw [ranked_eq, ranked_eq]
  have ht := supportOf_tallies scored sit_of
  refine mergeSort_perm_eq Support.key (fun a b ha hb hab => ?_)
    (ht.perm (supportOf_tallies scored' sit_of) (h.filterMap _))
  have hsid : a.sid = b.sid := congrArg (fun k => (ofLex (ofLex k).2).2) hab
  exact List.inj_on_of_nodup_map ht.nodup ha hb hsid

omit [Field E] [LinearOrder E] in
theorem components_perm (h : scored.Perm scored')
    (sit_of : Nat → Option Nat) (own : Option Nat) :
    components scored sit_of own = components scored' sit_of own := by
  have hsids := ((((h.filter (·.linked)).filterMap (sit_of ·.alarm_id)).append_right own.toList).dedup)
  have hsort := mergeSort_perm_eq id (fun a b _ _ => id) hsids
  simp only [id_eq] at hsort
  rw [components, components, hsort]

/-- A placement is one for every order of the scored pairs. -/
theorem Grouper.place_perm (g : Grouper E) (h : scored.Perm scored')
    (sit_of : Nat → Option Nat) (own : Option Nat) :
    g.place scored sit_of own = g.place scored' sit_of own := by
  rw [place, place, components_perm h, ranked_perm h]

/-- What has been committed between two situations, and what this activation adds to it, merges them. -/
def Clears (params : GroupingParams E) (evidence : E × Nat) : Prop :=
  params.merge_min_pairs ≤ evidence.2 ∧ params.merge_bias < evidence.1 / (evidence.2 : E)

theorem mem_merge {g : Grouper E} (hmode : g.mode = .cluster) {scored : List (Scored E)}
    {sit_of : Nat → Option Nat} {own : Option Nat} {m : Nat} (hm : m ∈ (g.place scored sit_of own).merge) :
    ∃ join, (g.place scored sit_of own).join = some join ∧ m ≠ join ∧
      Clears g.params (g.cross.held join m + about (named scored sit_of) m) := by
  simp only [Grouper.place, hmode] at hm ⊢
  cases hj : g.join (ranked scored sit_of) own with
  | none =>
    rw [hj] at hm
    exact absurd hm (by simp)
  | some join =>
    rw [hj] at hm
    obtain ⟨s, hs, rfl⟩ := List.mem_map.mp (List.mem_mergeSort.mp hm)
    obtain ⟨hs, hmerges⟩ := List.mem_filter.mp hs
    have hexact := (((supportOf_tallies scored sit_of).exact s).mp (List.mem_mergeSort.mp hs)).2
    simp only [Grouper.merges, Bool.and_eq_true, decide_eq_true_eq] at hmerges
    exact ⟨join, rfl, hmerges.1, hexact ▸ hmerges.2⟩

omit [LinearOrder E] in
/-- The evidence between the joined situation and another, this activation's included. -/
theorem total_committed (items : List (Item E)) (scored : List (Scored E)) (sit_of : Nat → Option Nat)
    {join m : Nat} (hne : m ≠ join) :
    total (items ++ (GrouperOp.commit join [] scored sit_of).items) join m =
      total items join m + about (named scored sit_of) m := by
  rw [total_append]
  congr 1
  rw [GrouperOp.items_commit]
  induction scored with
  | nil => rfl
  | cons p scored ih =>
    cases hp : sit_of p.alarm_id with
    | none => simpa [across, named, hp] using ih
    | some sid =>
      have hn : about (named (p :: scored) sit_of) m =
          (if sid = m then (p.evidence, 1) else 0) + about (named scored sit_of) m := by
        by_cases hs : sid = m <;> simp [named, about, hp, hs]
      by_cases hj : sid = join
      · have hsm : sid ≠ m := fun he => hne (he ▸ hj)
        rw [hn, if_neg hsm, zero_add]
        simpa [across, hp, hj] using ih
      · have ha : across join (p :: scored) sit_of = (sid, p.evidence) :: across join scored sit_of := by
          simp [across, hp, hj]
        rw [hn, ha, List.map_cons, total_cons, ih]
        simp only [Sym2.congr_right]

omit [LinearOrder E] in
theorem run_params (params : GroupingParams E) (ops : List (GrouperOp E)) :
    (Runs.run Grouper.step ⟨.cluster, params, .empty⟩ ops).params = params := by
  induction ops using List.reverseRecOn with
  | nil => rfl
  | append_singleton ops op ih =>
    rw [Runs.run_append, Runs.run_cons, Runs.run_nil]
    refine Eq.trans ?_ ih
    cases op with
    | commit sid merge scored sit_of =>
      simp only [Grouper.step, Grouper.commit]
      split <;> rfl
    | merged dst src => rfl
    | forget sid => rfl
    | prune live => rfl

/-- After any operations on the evidence, a situation is merged only if all that was committed between
it and the joined one, and is said now, clears. -/
theorem merge_clears (params : GroupingParams E) (ops : List (GrouperOp E)) {scored : List (Scored E)}
    {sit_of : Nat → Option Nat} {own : Option Nat} {m : Nat}
    (hm : m ∈ ((Runs.run Grouper.step ⟨.cluster, params, .empty⟩ ops).place scored sit_of own).merge) :
    ∃ join, ((Runs.run Grouper.step ⟨.cluster, params, .empty⟩ ops).place scored sit_of own).join =
        some join ∧ m ≠ join ∧
      Clears params (total (GrouperOp.evidence (ops ++ [.commit join [] scored sit_of])) join m) := by
  obtain ⟨hmode, hacc⟩ := run_accounts params ops
  obtain ⟨join, hjoin, hne, hclears⟩ := mem_merge hmode hm
  rw [run_params, hacc.held hne.symm, ← total_committed _ _ _ hne] at hclears
  refine ⟨join, hjoin, hne, ?_⟩
  have hheir : (GrouperOp.commit join [] scored sit_of).heir = some := by
    funext x
    simp [GrouperOp.heir]
  rwa [GrouperOp.evidence_append, hheir, carry_some]

end Place
end NetCoreNoc.Correlate

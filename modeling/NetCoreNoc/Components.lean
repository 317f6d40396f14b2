import Mathlib

/-! Labels on the vertices of a graph seen so far, kept up as vertices and edges arrive: two vertices
have one label exactly when the edges connect them. -/
namespace NetCoreNoc.Components
open Relation
variable {α β : Type*}

/-- The labels of the vertices seen so far are the components of the edges among them. -/
structure Labels (label : α → Option β) (edge : α → α → Prop) : Prop where
  seen : ∀ a b, edge a b → (label a).isSome ∧ (label b).isSome
  same : ∀ a b s, label a = some s → (label b = some s ↔ EqvGen edge a b)

theorem Labels.none : Labels (fun _ : α => (Option.none : Option β)) fun _ _ => False :=
  ⟨fun _ _ h => h.elim, fun _ _ _ h => absurd h (by simp)⟩

/-- Every vertex under its own label, and no edge. -/
theorem Labels.single (seen : α → Bool) :
    Labels (fun a => if seen a then some a else Option.none) fun _ _ => False := by
  refine ⟨fun _ _ h => h.elim, fun a b s ha => ?_⟩
  have hclosed : ∀ {x y : α}, EqvGen (fun _ _ : α => False) x y → x = y := by
    intro x y h
    induction h with
    | rel _ _ h => exact h.elim
    | refl => rfl
    | symm _ _ _ ih => exact ih.symm
    | trans _ _ _ _ _ ih ih' => exact ih.trans ih'
  obtain ⟨hseen, rfl⟩ : seen a = true ∧ a = s := by simpa using ha
  constructor
  · intro hb
    obtain rfl : b = a := (by simpa using hb : seen b = true ∧ b = a).2
    exact .refl _
  · intro h
    rw [← hclosed h, ha]

/-- The same edges, said otherwise. -/
theorem Labels.congr {label : α → Option β} {edge edge' : α → α → Prop} (h : Labels label edge)
    (he : ∀ a b, edge' a b ↔ edge a b) : Labels label edge' := by
  obtain rfl : edge' = edge := funext fun a => funext fun b => propext (he a b)
  exact h

section Attach
variable {label label' : α → Option β} {edge : α → α → Prop} {v : α} {near : α → Prop} {s : β}
  {taken : β → Prop} [DecidableEq α] [DecidablePred taken]

/-- A vertex, new or not, arrives with edges to vertices seen before: it and all the classes that it
touches take one label, which is one of theirs or is nobody's. -/
structure Attaches (label label' : α → Option β) (v : α) (near : α → Prop) (taken : β → Prop) (s : β)
    [DecidableEq α] [DecidablePred taken] : Prop where
  seen : ∀ b, near b → (label b).isSome
  touches : ∀ x, taken x ↔ label v = some x ∨ ∃ b, near b ∧ label b = some x
  free : taken s ∨ ∀ a, label a ≠ some s
  after : ∀ a, label' a = if a = v then some s else (label a).map fun x => if taken x then s else x

theorem Attaches.touched (h : Attaches label label' v near taken s) {a : α} {x : β}
    (ha : label a = some x) (hx : taken x) : label' a = some s := by
  rw [h.after]
  split
  · rfl
  · rw [ha, Option.map_some, if_pos hx]

theorem Attaches.untouched (h : Attaches label label' v near taken s) {a : α} {t : β}
    (ha : label' a = some t) (ht : t ≠ s) : label a = some t := by
  rw [h.after] at ha
  split at ha
  · exact absurd (Option.some.inj ha).symm ht
  · obtain ⟨x, hx, hxt⟩ := Option.map_eq_some_iff.mp ha
    split at hxt
    · exact absurd hxt.symm ht
    · exact hxt ▸ hx

/-- Whatever has the label that was given is connected to the vertex that arrived. -/
theorem Attaches.reaches (h : Attaches label label' v near taken s) (hl : Labels label edge) {a : α}
    (ha : label' a = some s) : EqvGen (fun a b => edge a b ∨ a = v ∧ near b) v a := by
  have hold : ∀ {x y : α}, EqvGen edge x y → EqvGen (fun a b => edge a b ∨ a = v ∧ near b) x y :=
    fun h => EqvGen.mono (fun _ _ => Or.inl) _ _ h
  rw [h.after] at ha
  split at ha
  · rename_i hav
    rw [hav]
    exact .refl v
  · obtain ⟨x, hx, hxs⟩ := Option.map_eq_some_iff.mp ha
    have htaken : taken x := by
      by_contra hn
      rw [if_neg hn] at hxs
      exact h.free.elim (fun hs => hn (hxs ▸ hs)) fun hs => hs a (hxs ▸ hx)
    rcases (h.touches x).mp htaken with hv | ⟨b, hb, hbx⟩
    · exact hold ((hl.same v a x hv).mp hx)
    · exact .trans _ b _ (.rel _ _ (.inr ⟨rfl, hb⟩)) (hold ((hl.same b a x hbx).mp hx))

theorem Attaches.edges (h : Attaches label label' v near taken s) (hl : Labels label edge) {a b : α}
    (hab : edge a b ∨ a = v ∧ near b) : label' a = label' b := by
  rcases hab with hab | ⟨rfl, hb⟩
  · obtain ⟨hsome, -⟩ := hl.seen a b hab
    obtain ⟨x, hx⟩ := Option.isSome_iff_exists.mp hsome
    have hy := (hl.same a b x hx).mpr (.rel _ _ hab)
    by_cases ht : taken x
    · rw [h.touched hx ht, h.touched hy ht]
    · have hne : ∀ c, label c = some x → c ≠ v := fun c hc he => ht ((h.touches x).mpr (.inl (he ▸ hc)))
      rw [h.after, h.after, if_neg (hne a hx), if_neg (hne b hy), hx, hy]
  · obtain ⟨x, hx⟩ := Option.isSome_iff_exists.mp (h.seen b hb)
    rw [h.touched hx ((h.touches x).mpr (.inr ⟨b, hb, hx⟩)), h.after, if_pos rfl]

/-- The step: the labels after an arrival are the components with the edges that arrived. -/
theorem Labels.attach (hl : Labels label edge) (h : Attaches label label' v near taken s) :
    Labels label' fun a b => edge a b ∨ a = v ∧ near b := by
  have hsome : ∀ a, (label a).isSome → (label' a).isSome := by
    intro a ha
    rw [h.after]
    split
    · rfl
    · rwa [Option.isSome_map]
  refine ⟨fun a b hab => ?_, fun a b t ha => ⟨fun hb => ?_, fun hab => ?_⟩⟩
  · rcases hab with hab | ⟨rfl, hb⟩
    · exact (hl.seen a b hab).imp (hsome a) (hsome b)
    · exact ⟨by rw [h.after, if_pos rfl]; rfl, hsome b (h.seen b hb)⟩
  · by_cases ht : t = s
    · subst ht
      exact .trans _ v _ (.symm _ _ (h.reaches hl ha)) (h.reaches hl hb)
    · have := (hl.same a b t (h.untouched ha ht)).mp (h.untouched hb ht)
      exact EqvGen.mono (fun _ _ => Or.inl) _ _ this
  · have hlabel : label' a = label' b := by
      clear ha
      induction hab with
      | rel _ _ hab => exact h.edges hl hab
      | refl => rfl
      | symm _ _ _ ih => exact ih.symm
      | trans _ _ _ _ _ ih ih' => exact ih.trans ih'
    exact hlabel ▸ ha

end Attach

/-- Connected by edges is reachable in their graph. -/
theorem reachable_iff {edge : α → α → Prop} {a b : α} :
    (SimpleGraph.fromRel edge).Reachable a b ↔ EqvGen edge a b := by
  constructor
  · rintro ⟨w⟩
    induction w with
    | nil => exact .refl _
    | cons h _ ih =>
      refine .trans _ _ _ ?_ ih
      rcases ((SimpleGraph.fromRel_adj edge _ _).mp h).2 with h | h
      · exact .rel _ _ h
      · exact .symm _ _ (.rel _ _ h)
  · intro h
    induction h with
    | rel a b h =>
      by_cases hab : a = b
      · exact hab ▸ .refl a
      · exact ((SimpleGraph.fromRel_adj edge a b).mpr ⟨hab, .inl h⟩).reachable
    | refl a => exact .refl a
    | symm _ _ _ ih => exact ih.symm
    | trans _ _ _ _ _ ih ih' => exact ih.trans ih'

/-- What edges connect, others connect that connect the images of the two sides of each. -/
theorem Reachable.map_edges {edge : α → α → Prop} {edge' : β → β → Prop} (f : α → β)
    (h : ∀ a b, edge a b → (SimpleGraph.fromRel edge').Reachable (f a) (f b)) {a b : α}
    (hab : (SimpleGraph.fromRel edge).Reachable a b) : (SimpleGraph.fromRel edge').Reachable (f a) (f b) := by
  rw [reachable_iff] at hab
  induction hab with
  | rel a b hab => exact h a b hab
  | refl a => exact .refl (f a)
  | symm _ _ _ ih => exact ih.symm
  | trans _ _ _ _ _ ih ih' => exact ih.trans ih'

/-- What edges connect, others connect that connect the two sides of each. -/
theorem Reachable.of_edges {edge edge' : α → α → Prop}
    (h : ∀ a b, edge a b → (SimpleGraph.fromRel edge').Reachable a b) {a b : α}
    (hab : (SimpleGraph.fromRel edge).Reachable a b) : (SimpleGraph.fromRel edge').Reachable a b :=
  Reachable.map_edges id h hab

/-- What no edge leaves, no path leaves: the edges inside it connect what all the edges do. -/
theorem Reachable.closed {edge edge' : α → α → Prop} {inside : α → Prop}
    (h : ∀ a b, edge a b → (inside a ↔ inside b) ∧ (inside a → edge' a b)) {a b : α} (ha : inside a)
    (hab : (SimpleGraph.fromRel edge).Reachable a b) :
    inside b ∧ (SimpleGraph.fromRel edge').Reachable a b := by
  rw [reachable_iff] at hab
  have hboth : (inside a ↔ inside b) ∧ (inside a → EqvGen edge' a b) := by
    clear ha
    induction hab with
    | rel a b hab => exact (h a b hab).imp_right fun h' ha => .rel _ _ (h' ha)
    | refl a => exact ⟨Iff.rfl, fun _ => .refl a⟩
    | symm _ _ _ ih => exact ⟨ih.1.symm, fun hb => .symm _ _ (ih.2 (ih.1.mpr hb))⟩
    | trans _ _ _ _ _ ih ih' =>
      exact ⟨ih.1.trans ih'.1, fun ha => .trans _ _ _ (ih.2 ha) (ih'.2 (ih.1.mp ha))⟩
  exact ⟨hboth.1.mp ha, reachable_iff.mpr (hboth.2 ha)⟩

/-- Two vertices seen have one label exactly when their component is one. -/
theorem Labels.component {label : α → Option β} {edge : α → α → Prop} (h : Labels label edge) {a b : α}
    {s t : β} (ha : label a = some s) (hb : label b = some t) :
    s = t ↔ (SimpleGraph.fromRel edge).Reachable a b := by
  rw [reachable_iff, ← h.same a b s ha, hb, Option.some_inj]
  exact eq_comm

end NetCoreNoc.Components

import Mathlib
import NetCoreNoc.Intake.Feed

/-! What the feed keeps through deliveries, commits, crashes and the isolation of a record that the
engine cannot classify. -/
namespace NetCoreNoc.Intake
variable {P I : Type} {decode : P → Result I} {spool : List (Nat × P)} {lo hi : Nat}

theorem mem_events {x : Nat × I} : x ∈ events decode spool lo hi ↔
    ∃ payload, (x.1, payload) ∈ spool ∧ decode payload = .event x.2 ∧ lo < x.1 ∧ x.1 ≤ hi := by
  unfold events
  rw [List.mem_filterMap]
  constructor
  · rintro ⟨⟨seq, payload⟩, hmem, hx⟩
    split at hx
    · rename_i hin
      simp only [Bool.and_eq_true, decide_eq_true_eq] at hin
      cases hd : decode payload with
      | event event =>
        simp only [hd, Option.some.injEq] at hx
        subst hx
        exact ⟨payload, hmem, hd, hin.1, hin.2⟩
      | ignored => simp [hd] at hx
      | invalid reason => simp [hd] at hx
    · exact absurd hx (by simp)
  · rintro ⟨payload, hmem, hd, hlo, hhi⟩
    exact ⟨(x.1, payload), hmem, by simp [hlo, hhi, hd]⟩

theorem events_sorted (hs : spool.Pairwise (·.1 < ·.1)) :
    (events decode spool lo hi).Pairwise (·.1 < ·.1) := by
  refine hs.filterMap _ fun r r' hr x hx x' hx' => ?_
  have hfst (r : Nat × P) (x : Nat × I) (hx : x ∈ events decode [r] lo hi) : x.1 = r.1 := by
    obtain ⟨payload, hmem, -⟩ := mem_events.mp hx
    exact congrArg Prod.fst (List.mem_singleton.mp hmem)
  rw [hfst r x (List.mem_filterMap.mpr ⟨r, List.mem_singleton_self r, hx⟩),
    hfst r' x' (List.mem_filterMap.mpr ⟨r', List.mem_singleton_self r', hx'⟩)]
  exact hr

theorem events_none : events decode spool lo lo = [] := by
  rw [List.eq_nil_iff_forall_not_mem]
  intro x hx
  obtain ⟨-, -, -, h1, h2⟩ := mem_events.mp hx
  exact absurd h1 (not_lt.mpr h2)

/-- A record that lies outside the range adds no event. -/
theorem events_write {r : Nat × P} (h : ¬ (lo < r.1 ∧ r.1 ≤ hi)) :
    events decode (spool ++ [r]) lo hi = events decode spool lo hi := by
  unfold events
  have hout : ¬ (decide (lo < r.1) && decide (r.1 ≤ hi)) = true := by simpa using h
  rw [List.filterMap_append, List.filterMap_cons, if_neg hout]
  exact List.append_nil _

/-- The next record adds its event, where it is one. -/
theorem events_next (hs : spool.Pairwise (·.1 < ·.1)) {position : Nat} (hlo : lo ≤ position)
    {r : Nat × P} (hr : spool.find? (position < ·.1) = some r) :
    events decode spool lo r.1 = events decode spool lo position ++
      match decode r.2 with
      | .event event => [(r.1, event)]
      | _ => [] := by
  obtain ⟨hpos, before, after, rfl, hbefore⟩ := List.find?_eq_some_iff_append.mp hr
  have hpos : position < r.1 := of_decide_eq_true hpos
  have hbefore : ∀ b ∈ before, b.1 ≤ position := fun b hb => by simpa using hbefore b hb
  obtain ⟨-, hafter, -⟩ := List.pairwise_append.mp hs
  have hafter : ∀ a ∈ after, r.1 < a.1 := (List.pairwise_cons.mp hafter).1
  have hrange : ∀ (l : List (Nat × P)) (h h' : Nat), (∀ a ∈ l, (lo < a.1 ∧ a.1 ≤ h) ↔ (lo < a.1 ∧ a.1 ≤ h')) →
      events decode l lo h = events decode l lo h' := by
    intro l h h' hl
    refine List.filterMap_congr fun a ha => ?_
    have : (decide (lo < a.1) && decide (a.1 ≤ h)) = (decide (lo < a.1) && decide (a.1 ≤ h')) := by
      rw [Bool.eq_iff_iff]
      simpa using hl a ha
    rw [this]
  have hnone : ∀ (l : List (Nat × P)) (h : Nat), (∀ a ∈ l, h < a.1) → events decode l lo h = [] := by
    intro l h hl
    rw [List.eq_nil_iff_forall_not_mem]
    intro x hx
    obtain ⟨payload, hmem, -, -, hle⟩ := mem_events.mp hx
    exact absurd (hl _ hmem) (not_lt.mpr hle)
  have happend : ∀ (l l' : List (Nat × P)) (h : Nat),
      events decode (l ++ l') lo h = events decode l lo h ++ events decode l' lo h := fun l l' h =>
    List.filterMap_append
  rw [happend, happend before, hnone (r :: after) position]
  · have hcons : events decode (r :: after) lo r.1 = (match decode r.2 with
        | .event event => [(r.1, event)]
        | _ => []) ++ events decode after lo r.1 := by
      unfold events
      rw [List.filterMap_cons]
      have : (decide (lo < r.1) && decide (r.1 ≤ r.1)) = true := by simpa using hlo.trans_lt hpos
      simp only [this, if_true]
      cases decode r.2 <;> rfl
    rw [hcons, hnone after r.1 hafter, List.append_nil, List.append_nil]
    congr 1
    refine hrange before _ _ fun a ha => ?_
    have := hbefore a ha
    omega
  · intro a ha
    rcases List.mem_cons.mp ha with rfl | ha
    · exact hpos
    · exact hpos.trans (hafter a ha)

/-- Of pairs in order, those up to the last of a prefix are the prefix. -/
theorem cut_sorted {α : Type} (key : α → Nat) {l : List α} (hs : l.Pairwise (key · < key ·)) {n : Nat} {x : α}
    (hx : l[n]? = some x) : l.takeWhile (key · ≤ key x) = l.take (n + 1) ∧
      l.dropWhile (key · ≤ key x) = l.drop (n + 1) ∧ l.filter (key x < key ·) = l.drop (n + 1) := by
  induction l generalizing n with
  | nil => exact absurd hx (by simp)
  | cons a l ih =>
    obtain ⟨hle, hs⟩ := List.pairwise_cons.mp hs
    cases n with
    | zero =>
      obtain rfl : a = x := by simpa using hx
      have hstop : l.takeWhile (key · ≤ key a) = [] ∧ l.dropWhile (key · ≤ key a) = l := by
        cases l with
        | nil => exact ⟨rfl, rfl⟩
        | cons b l =>
          have hb : ¬ key b ≤ key a := not_le.mpr (hle b List.mem_cons_self)
          simp [hb]
      have hall : l.filter (key a < key ·) = l := List.filter_eq_self.mpr fun b hb => by simpa using hle b hb
      simp [hstop, hall]
    | succ n =>
      have hx : l[n]? = some x := by simpa using hx
      have ha : key a ≤ key x := (hle x (List.mem_of_getElem? hx)).le
      obtain ⟨h1, h2, h3⟩ := ih hs hx
      simp [ha, h1, h2, h3]

theorem events_from {s : Nat} (h : lo ≤ s) :
    events decode spool s hi = (events decode spool lo hi).filter (s < ·.1) := by
  unfold events
  rw [List.filter_filterMap]
  refine List.filterMap_congr fun r _ => ?_
  by_cases hs : s < r.1
  · have hlo := h.trans_lt hs
    by_cases hhi : r.1 ≤ hi <;> cases decode r.2 <;> simp [hs, hlo, hhi, Option.filter]
  · by_cases hlo : lo < r.1 <;> by_cases hhi : r.1 ≤ hi <;> cases decode r.2 <;>
      simp [hs, hlo, hhi, Option.filter]

namespace Pipeline
variable {w : Pipeline P I} {c₀ : Nat}

/-- What holds in every state: the feed is what the reader has handed on and the database has not
committed, the engine has its head in hand, and the cursor leaves no event behind. -/
structure Conserved (decode : P → Result I) (c₀ : Nat) (w : Pipeline P I) : Prop where
  sorted : w.spool.Pairwise (·.1 < ·.1)
  cursor : w.feed.cursor = w.stored
  opened : c₀ ≤ w.stored
  reader : ∀ position ∈ w.pump, w.stored ≤ position ∧ (position = w.stored ∨ position ∈ w.spool.map (·.1))
  pending : w.feed.pending.map (fun p => (p.2, p.1.event)) =
    events decode w.spool w.stored (w.pump.getD w.stored)
  held : w.feed.pending.map (·.1) = w.batch ++ w.feed.queue
  record : ∀ p ∈ w.feed.pending, p.1.record = p.2
  ids : (w.feed.pending.map (·.1.id)).Nodup
  seqs : ∀ p ∈ w.feed.pending, w.feed.seq_of p.1.id = some p.2
  taken : w.taken ≤ w.batch.length
  effects : w.effects = (w.batch.take w.taken).map (·.record)
  staged : ∀ position ∈ w.staged, 0 < w.taken ∧
    position = (w.batch[w.taken - 1]?).map (·.record)
  drawn : w.stored = c₀ ∨ w.stored ∈ w.spool.map (·.1)
  setting : ∀ seq ∈ w.setting, w.feed.pending = [] ∧ w.pump = some seq ∧ seq ∈ w.spool.map (·.1)
  down : w.up = false → w.taken = 0 ∧ w.staged = none
  settled : ∀ r ∈ w.spool, ∀ event, decode r.2 = .event event → c₀ < r.1 → r.1 ≤ w.stored →
    r.1 ∈ w.applied ∨ r.1 ∈ w.dead_letter.map (·.1)
  applied : w.applied.Pairwise (· < ·) ∧ ∀ s ∈ w.applied, c₀ < s ∧ s ≤ w.stored
  /-- one at a time, as far as the isolation goes -/
  alone : ∀ p ∈ w.feed.pending.tail, w.feed.isolate_until < p.2
  isolated : w.stored < w.feed.isolate_until →
    ∃ r ∈ w.spool, r.1 = w.feed.isolate_until ∧ ∃ event, decode r.2 = .event event

theorem conserved_opened (c₀ : Nat) : (opened c₀ : Pipeline P I).Conserved decode c₀ := by
  refine ⟨.nil, rfl, le_rfl, ?_, ?_, rfl, ?_, .nil, ?_, le_rfl, rfl, ?_, .inl rfl, ?_, fun _ => ⟨rfl, rfl⟩, ?_,
    ⟨.nil, ?_⟩, ?_, fun h => absurd h (Nat.not_lt_zero c₀)⟩
  · exact fun _ h => absurd h (by simp [Pipeline.opened])
  · exact events_none.symm
  all_goals exact fun _ h => absurd h (by simp [Pipeline.opened])

variable (h : w.Conserved decode c₀)
include h

theorem Conserved.range {p : QueueItem I × Nat} (hp : p ∈ w.feed.pending) :
    w.stored < p.2 ∧ p.2 ≤ w.pump.getD w.stored ∧ p.2 ∈ w.spool.map (·.1) := by
  have hmem : (p.2, p.1.event) ∈ events decode w.spool w.stored (w.pump.getD w.stored) :=
    h.pending ▸ List.mem_map_of_mem hp
  obtain ⟨payload, hr, -, hlo, hhi⟩ := mem_events.mp hmem
  exact ⟨hlo, hhi, List.mem_map_of_mem hr⟩

theorem Conserved.ordered : w.feed.pending.Pairwise (·.2 < ·.2) := by
  have : (events decode w.spool w.stored (w.pump.getD w.stored)).Pairwise (·.1 < ·.1) := events_sorted h.sorted
  rw [← h.pending, List.pairwise_map] at this
  exact this

/-- What the engine has in hand is a prefix of what was delivered. -/
theorem Conserved.front {n : Nat} (hn : n ≤ w.batch.length) :
    (w.feed.pending.take n).map (·.1) = w.batch.take n ∧
      (w.feed.pending.take n).map (·.2) = (w.batch.take n).map (·.record) := by
  have h1 : (w.feed.pending.take n).map (·.1) = w.batch.take n := by
    rw [List.map_take, h.held, List.take_append_of_le_length hn]
  refine ⟨h1, ?_⟩
  rw [← h1, List.map_map]
  exact List.map_congr_left fun p hp => (h.record p (List.mem_of_mem_take hp)).symm

theorem conserved_write (seq : Nat) (payload : P) :
    (w.step decode maxsize (.write seq payload)).Conserved decode c₀ := by
  unfold step
  dsimp only
  split
  · rename_i hall
    have hlast : ∀ r ∈ w.spool, r.1 < seq := fun r hr => by simpa using List.all_eq_true.mp hall r hr
    have hstored : c₀ < seq → w.stored < seq := fun hc => h.drawn.elim (· ▸ hc) fun hm => by
      obtain ⟨r, hr, he⟩ := List.mem_map.mp hm
      exact he ▸ hlast r hr
    have hgrow : ∀ {x : Nat}, x ∈ w.spool.map (·.1) → x ∈ (w.spool ++ [(seq, payload)]).map (·.1) :=
      fun hx => by rw [List.map_append]; exact List.mem_append_left _ hx
    refine ⟨?_, h.cursor, h.opened, fun pos hp => ?_, ?_, h.held, h.record, h.ids, h.seqs, h.taken, h.effects,
      h.staged, h.drawn.imp id hgrow, fun s hs => ?_, h.down, fun r hr event hd hc hle => ?_, h.applied, h.alone,
      fun hiso => (h.isolated hiso).imp fun _ hr => ⟨List.mem_append_left _ hr.1, hr.2⟩⟩
    · refine List.pairwise_append.mpr ⟨h.sorted, List.pairwise_singleton .., ?_⟩
      rintro r hr _ hx
      obtain rfl := List.mem_singleton.mp hx
      exact hlast r hr
    · exact ⟨(h.reader pos hp).1, (h.reader pos hp).2.imp id hgrow⟩
    · rw [events_write, h.pending]
      rintro ⟨hlo, hhi⟩
      cases hp : w.pump with
      | none =>
        rw [hp] at hhi
        exact absurd hlo (not_lt.mpr hhi)
      | some pos =>
        rw [hp] at hhi
        rcases (h.reader pos hp).2 with he | hm
        · exact absurd (he ▸ hlo) (not_lt.mpr hhi)
        · obtain ⟨r, hr, he⟩ := List.mem_map.mp hm
          exact absurd (hlast r hr) (not_lt.mpr (he.symm ▸ hhi))
    · obtain ⟨h1, h2, h3⟩ := h.setting s hs
      exact ⟨h1, h2, hgrow h3⟩
    · rcases List.mem_append.mp hr with hr | hr
      · exact h.settled r hr event hd hc hle
      · obtain rfl := List.mem_singleton.mp hr
        exact absurd hle (not_le.mpr (hstored hc))
  · exact h

/-- The reader's next record: what it adds, and where it lies. -/
theorem Conserved.next {position : Nat} (hp : w.pump = some position) {r : Nat × P}
    (hr : w.spool.find? (position < ·.1) = some r) :
    w.feed.pending.map (fun p => (p.2, p.1.event)) ++ (match decode r.2 with
      | .event event => [(r.1, event)]
      | _ => []) = events decode w.spool w.stored r.1 ∧
    (w.stored ≤ r.1 ∧ r.1 ∈ w.spool.map (·.1)) := by
  have hlo := (h.reader position hp).1
  have hpos : position < r.1 := by simpa using List.find?_some hr
  refine ⟨?_, hlo.trans hpos.le, List.mem_map_of_mem (List.mem_of_find?_eq_some hr)⟩
  rw [events_next h.sorted hlo hr, h.pending, hp]
  rfl

theorem conserved_deliver (id : Nat) : (w.deliver decode maxsize id).Conserved decode c₀ := by
  unfold deliver
  split
  · rename_i position hp hset
    split
    · exact h
    · rename_i seq payload hr
      obtain ⟨hnext, hle, hmem⟩ := h.next hp hr
      have hreader : ∀ pos ∈ some seq, w.stored ≤ pos ∧ (pos = w.stored ∨ pos ∈ w.spool.map (·.1)) :=
        fun pos hpos => Option.mem_some.mp hpos ▸ ⟨hle, .inr hmem⟩
      have hunset : ∀ s ∈ w.setting, False := fun s hs => by simp [hset] at hs
      cases hd : decode payload with
      | ignored =>
        simp only [hd, List.append_nil] at hnext
        exact ⟨h.sorted, h.cursor, h.opened, hreader, hnext, h.held, h.record, h.ids, h.seqs, h.taken, h.effects,
          h.staged, h.drawn, fun s hs => (hunset s hs).elim, h.down, h.settled, h.applied, h.alone, h.isolated⟩
      | invalid reason =>
        simp only [hd, List.append_nil] at hnext
        dsimp only
        split
        · rename_i hempty
          refine ⟨h.sorted, h.cursor, h.opened, hreader, hnext, h.held, h.record, h.ids, h.seqs, h.taken, h.effects,
            h.staged, h.drawn, fun s hs => ?_, h.down, fun r hr event hev hc hle => ?_, h.applied, h.alone,
            h.isolated⟩
          · obtain rfl := Option.mem_some.mp hs
            exact ⟨List.isEmpty_iff.mp hempty, rfl, hmem⟩
          · refine (h.settled r hr event hev hc hle).imp (fun hm => hm) fun hm => ?_
            rw [List.map_append]
            exact List.mem_append_left _ hm
        · exact h
      | event event =>
        simp only [hd] at hnext
        dsimp only
        split
        · exact h
        rename_i hwait
        split
        · exact h
        split
        · exact h
        rename_i hfresh
        have hfresh : ∀ p ∈ w.feed.pending, p.1.id ≠ id := fun p hp he =>
          hfresh (List.any_eq_true.mpr ⟨p, hp, decide_eq_true he⟩)
        refine ⟨h.sorted, h.cursor, h.opened, hreader, ?_, ?_, ?_, ?_, ?_, h.taken, h.effects, h.staged, h.drawn,
          fun s hs => (hunset s hs).elim, h.down, h.settled, h.applied, fun p hp => ?_, h.isolated⟩
        · exact (List.map_append).trans hnext
        · show (w.feed.pending ++ _).map _ = w.batch ++ (w.feed.queue ++ _)
          rw [List.map_append, h.held, List.append_assoc]
          rfl
        · intro p hp
          rcases List.mem_append.mp hp with hp | hp
          · exact h.record p hp
          · rw [List.mem_singleton.mp hp]
        · show ((w.feed.pending ++ _).map _).Nodup
          rw [List.map_append]
          refine List.Nodup.append h.ids (List.nodup_singleton _) fun x hx hx' => ?_
          obtain ⟨p, hp, rfl⟩ := List.mem_map.mp hx
          exact hfresh p hp (List.mem_singleton.mp hx')
        · intro p hp
          rcases List.mem_append.mp hp with hp | hp
          · exact (Function.update_of_ne (hfresh p hp) _ _).trans (h.seqs p hp)
          · rw [List.mem_singleton.mp hp]
            exact Function.update_self ..
        · -- the feed waits while the isolation covers the record and another is not committed
          have hp : p ∈ (w.feed.pending ++ [((⟨id, event, seq⟩ : QueueItem I), seq)]).tail := hp
          cases hpend : w.feed.pending with
          | nil => exact absurd hp (by simp [hpend])
          | cons q pending =>
            rw [hpend, List.cons_append, List.tail_cons] at hp
            rcases List.mem_append.mp hp with hp | hp
            · exact h.alone p (hpend ▸ hp)
            · rw [List.mem_singleton.mp hp]
              have hwait : ¬ seq ≤ w.feed.isolate_until := fun hle => hwait (by simp [hle, hpend])
              exact not_le.mp hwait
  · exact h

theorem conserved_settle : (w.step decode maxsize .settle).Conserved decode c₀ := by
  unfold step
  dsimp only
  split
  · rename_i seq hset
    obtain ⟨hempty, hpump, hmem⟩ := h.setting seq hset
    have hle := (h.reader seq hpump).1
    have hcursor : max w.feed.cursor seq = seq := max_eq_right (h.cursor.le.trans hle)
    have hnone : w.batch ++ w.feed.queue = [] := h.held ▸ by rw [hempty]; rfl
    have hevents : events decode w.spool w.stored seq = [] := by
      have := h.pending
      rw [hempty, hpump] at this
      exact this.symm
    refine ⟨h.sorted, hcursor, h.opened.trans hle, fun pos hp => ?_, ?_, h.held, h.record, h.ids, h.seqs, h.taken,
      h.effects, h.staged, .inr hmem, fun s hs => absurd hs (by simp), h.down, fun r hr event hd hc hs => ?_,
      ⟨h.applied.1, fun s hs => ⟨(h.applied.2 s hs).1, (h.applied.2 s hs).2.trans hle⟩⟩, h.alone,
      fun hiso => h.isolated (hle.trans_lt hiso)⟩
    · obtain rfl := Option.mem_some.mp (hpump ▸ hp)
      exact ⟨le_rfl, .inl rfl⟩
    · show w.feed.pending.map _ = events decode w.spool seq (w.pump.getD seq)
      rw [hempty, hpump]
      exact events_none.symm
    · rcases le_or_gt r.1 w.stored with hold | hnew
      · exact h.settled r hr event hd hc hold
      · have : (r.1, event) ∈ events decode w.spool w.stored seq :=
          mem_events.mpr ⟨r.2, hr, hd, hnew, hs⟩
        rw [hevents] at this
        exact absurd this List.not_mem_nil
  · exact h

theorem conserved_take : (w.step decode maxsize .take).Conserved decode c₀ := by
  unfold step
  dsimp only
  split
  · rename_i item queue hq
    split
    · rename_i hup
      simp only [Bool.and_eq_true, decide_eq_true_eq] at hup
      have hzero : ∀ (l : List (QueueItem I)), l.take w.taken = [] := fun l => by rw [hup.2]; rfl
      refine ⟨h.sorted, h.cursor, h.opened, h.reader, h.pending, ?_, h.record, h.ids, h.seqs, ?_, ?_, fun pos hp => ?_,
        h.drawn, h.setting, h.down, h.settled, h.applied, h.alone, h.isolated⟩
      · rw [h.held, hq, List.append_assoc]
        rfl
      · rw [List.length_append]
        exact h.taken.trans (Nat.le_add_right ..)
      · rw [h.effects, hzero, hzero]
      · exact absurd hup.2 (h.staged pos hp).1.ne'
    · exact h
  · exact h

theorem conserved_process : (w.step decode maxsize .process).Conserved decode c₀ := by
  unfold step
  dsimp only
  split
  · rename_i item hitem
    split
    · rename_i hup
      simp only [Bool.and_eq_true, Option.isNone_iff_eq_none] at hup
      obtain ⟨hlt, hget⟩ := List.getElem?_eq_some_iff.mp hitem
      refine ⟨h.sorted, h.cursor, h.opened, h.reader, h.pending, h.held, h.record, h.ids, h.seqs, hlt, ?_,
        fun pos hp => ?_, h.drawn, h.setting, fun hdown => ?_, h.settled, h.applied, h.alone, h.isolated⟩
      · rw [h.effects, List.take_add_one, hitem, List.map_append]
        rfl
      · rw [hup.2] at hp
        exact absurd hp (by simp)
      · exact absurd (hup.1.symm.trans hdown) (by simp)
    · exact h
  · exact h

theorem conserved_stage : (w.step decode maxsize .stage).Conserved decode c₀ := by
  unfold step
  dsimp only
  split
  · rename_i hup
    simp only [Bool.and_eq_true, decide_eq_true_eq] at hup
    obtain ⟨⟨hup, hpos⟩, -⟩ := hup
    refine ⟨h.sorted, h.cursor, h.opened, h.reader, h.pending, h.held, h.record, h.ids, h.seqs, h.taken, h.effects,
      fun pos hp => ⟨hpos, ?_⟩, h.drawn, h.setting, fun hdown => absurd (hup.symm.trans hdown) (by simp), h.settled,
      h.applied, h.alone, h.isolated⟩
    obtain rfl : w.feed.stage (w.batch.take w.taken) = pos := Option.some.inj hp
    have hlt : w.taken - 1 < w.batch.length := by have := h.taken; omega
    have hlast : (w.batch.take w.taken).getLast? = some w.batch[w.taken - 1] := by
      rw [List.getLast?_eq_getElem?, List.length_take, min_eq_left h.taken, List.getElem?_take_of_lt (by omega),
        List.getElem?_eq_getElem hlt]
    obtain ⟨p, hp, hitem⟩ : ∃ p ∈ w.feed.pending, p.1 = w.batch[w.taken - 1] := by
      have : w.batch[w.taken - 1] ∈ w.feed.pending.map (·.1) :=
        h.held ▸ List.mem_append_left _ (List.getElem_mem hlt)
      exact List.mem_map.mp this
    unfold SpoolFeed.stage
    rw [hlast, List.getElem?_eq_getElem hlt]
    show w.feed.seq_of w.batch[w.taken - 1].id = some w.batch[w.taken - 1].record
    rw [← hitem, h.seqs p hp, h.record p hp]
  · exact h

/-- The cursor that the transaction wrote is the number of the last record it processed. -/
theorem Conserved.position {position : Option Nat} (hstaged : w.staged = some position) :
    0 < w.taken ∧ ∃ p, w.feed.pending[w.taken - 1]? = some p ∧ position = some p.2 := by
  obtain ⟨hpos, hposition⟩ := h.staged position hstaged
  have hlen : w.taken ≤ w.feed.pending.length := by
    have := congrArg List.length h.held
    rw [List.length_map, List.length_append] at this
    exact h.taken.trans (this ▸ Nat.le_add_right ..)
  obtain ⟨p, hp⟩ : ∃ p, w.feed.pending[w.taken - 1]? = some p :=
    ⟨_, List.getElem?_eq_getElem (Nat.lt_of_lt_of_le (Nat.sub_lt hpos Nat.one_pos) hlen)⟩
  have hitem : w.batch[w.taken - 1]? = some p.1 := by
    rw [← List.getElem?_take_of_lt (Nat.sub_lt hpos Nat.one_pos), ← (h.front h.taken).1, List.getElem?_map,
      List.getElem?_take_of_lt (Nat.sub_lt hpos Nat.one_pos), hp]
    rfl
  refine ⟨hpos, p, hp, ?_⟩
  rw [hposition, hitem]
  exact congrArg some (h.record p (List.mem_of_getElem? hp))

/-- A commit: the pending records up to the cursor are those of the transaction. -/
theorem conserved_commit : (w.step decode maxsize .commit).Conserved decode c₀ := by
  unfold step
  dsimp only
  split
  · rename_i position hstaged
    obtain ⟨hpos, p, hp, rfl⟩ := h.position hstaged
    have hmem := List.mem_of_getElem? hp
    have hrecords := (h.front h.taken).2
    obtain ⟨hlo, hhi, hspool⟩ := h.range hmem
    have hcursor : max w.feed.cursor p.2 = p.2 := max_eq_right (h.cursor.le.trans hlo.le)
    obtain ⟨htake, hdrop, hlater⟩ := cut_sorted (·.2) h.ordered hp
    rw [Nat.sub_add_cancel hpos] at htake hdrop hlater
    have heffects : w.effects = (w.feed.pending.take w.taken).map (·.2) := h.effects.trans hrecords.symm
    have hupto : ∀ s ∈ w.effects, w.stored < s ∧ s ≤ p.2 := by
      intro s hs
      obtain ⟨q, hq, rfl⟩ := List.mem_map.mp (heffects ▸ hs)
      refine ⟨(h.range (List.mem_of_mem_take hq)).1, ?_⟩
      rw [← htake] at hq
      simpa using List.mem_takeWhile_imp hq
    have hfeed : w.feed.committed (some p.2) = { w.feed with
        cursor := p.2
        pending := w.feed.pending.drop w.taken
        seq_of := fun id => if (w.feed.pending.take w.taken).any (·.1.id = id) then none else w.feed.seq_of id } := by
      simp only [SpoolFeed.committed, hcursor, htake, hdrop]
    simp only [hfeed, Option.getD_some]
    refine ⟨h.sorted, rfl, h.opened.trans hlo.le, fun pos hq => ?_, ?_, ?_, fun q hq => ?_, ?_, fun q hq => ?_,
      Nat.zero_le _, rfl, fun _ hq => absurd hq (by simp), .inr hspool, fun s hs => ?_, fun _ => ⟨rfl, rfl⟩,
      fun r hr event hd hc hle => ?_, ⟨?_, fun s hs => ?_⟩, fun q hq => ?_, fun hiso => h.isolated (hlo.trans hiso)⟩
    · have hle : p.2 ≤ pos := by
        rw [Option.mem_def.mp hq] at hhi
        exact hhi
      refine ⟨hle, .inr ((h.reader pos hq).2.resolve_left fun he => ?_)⟩
      exact absurd (he ▸ hle) (not_le.mpr hlo)
    · have hsorted : (events decode w.spool w.stored (w.pump.getD w.stored)).Pairwise (·.1 < ·.1) :=
        events_sorted h.sorted
      have hnth : (events decode w.spool w.stored (w.pump.getD w.stored))[w.taken - 1]? = some (p.2, p.1.event) := by
        rw [← h.pending, List.getElem?_map, hp]
        rfl
      obtain ⟨-, -, hfilter⟩ := cut_sorted (·.1) hsorted hnth
      rw [Nat.sub_add_cancel hpos] at hfilter
      have hpump : w.pump.getD p.2 = w.pump.getD w.stored := by
        cases hpump : w.pump with
        | none =>
          rw [hpump] at hhi
          exact absurd hlo (not_lt.mpr hhi)
        | some pos => rfl
      show (w.feed.pending.drop w.taken).map _ = events decode w.spool p.2 (w.pump.getD p.2)
      rw [hpump, events_from hlo.le, hfilter, List.map_drop, h.pending]
    · show (w.feed.pending.drop w.taken).map _ = w.batch.drop w.taken ++ w.feed.queue
      rw [List.map_drop, h.held, List.drop_append_of_le_length h.taken]
    · exact h.record q (List.mem_of_mem_drop hq)
    · exact h.ids.sublist ((List.drop_sublist ..).map _)
    · have hgone : ¬ (w.feed.pending.take w.taken).any (·.1.id = q.1.id) = true := by
        intro hany
        obtain ⟨q', hq', he⟩ := List.any_eq_true.mp hany
        have hsplit : ((w.feed.pending.take w.taken ++ w.feed.pending.drop w.taken).map (·.1.id)).Nodup := by
          rw [List.take_append_drop]
          exact h.ids
        rw [List.map_append] at hsplit
        exact (List.nodup_append.mp hsplit).2.2 _ (List.mem_map_of_mem hq') _ (List.mem_map_of_mem hq)
          (of_decide_eq_true he)
      exact (if_neg hgone).trans (h.seqs q (List.mem_of_mem_drop hq))
    · rw [(h.setting s hs).1] at hmem
      exact absurd hmem List.not_mem_nil
    · rcases le_or_gt r.1 w.stored with hold | hnew
      · exact (h.settled r hr event hd hc hold).imp (List.mem_append_left _) fun hm => hm
      · have hin : (r.1, event) ∈ events decode w.spool w.stored (w.pump.getD w.stored) :=
          mem_events.mpr ⟨r.2, hr, hd, hnew, hle.trans hhi⟩
        rw [← h.pending] at hin
        obtain ⟨q, hq, he⟩ := List.mem_map.mp hin
        have he : q.2 = r.1 := congrArg Prod.fst he
        refine .inl (List.mem_append_right _ ?_)
        rw [heffects, ← he]
        refine List.mem_map_of_mem ?_
        have hq : q ∈ w.feed.pending.take w.taken ++ w.feed.pending.drop w.taken := by rwa [List.take_append_drop]
        rcases List.mem_append.mp hq with hq | hq
        · exact hq
        · rw [← hlater] at hq
          have hlt : p.2 < q.2 := by simpa using (List.mem_filter.mp hq).2
          exact absurd (he.trans_le hle) (not_le.mpr hlt)
    · rw [List.pairwise_append]
      refine ⟨h.applied.1, ?_, fun s hs s' hs' => (h.applied.2 s hs).2.trans_lt (hupto s' hs').1⟩
      rw [heffects, List.pairwise_map]
      exact h.ordered.sublist (List.take_sublist ..)
    · rcases List.mem_append.mp hs with hs | hs
      · exact ⟨(h.applied.2 s hs).1, (h.applied.2 s hs).2.trans hlo.le⟩
      · exact ⟨h.opened.trans_lt (hupto s hs).1, (hupto s hs).2⟩
    · refine h.alone q (List.mem_of_mem_drop (i := w.taken - 1) ?_)
      have hq : q ∈ (w.feed.pending.drop w.taken).tail := hq
      rw [List.tail_drop] at hq
      rw [List.drop_tail, Nat.sub_add_cancel hpos]
      exact List.mem_of_mem_tail (by rwa [List.tail_drop])
  · exact h

/-- What is undone of a batch costs nothing, whether the engine goes on or ends. -/
theorem conserved_undone (up : Bool) : ({ w.undo with up } : Pipeline P I).Conserved decode c₀ :=
  ⟨h.sorted, h.cursor, h.opened, h.reader, h.pending, h.held, h.record, h.ids, h.seqs, Nat.zero_le _, rfl,
    fun _ hq => absurd hq (by simp [undo]), h.drawn, h.setting, fun _ => ⟨rfl, rfl⟩, h.settled, h.applied, h.alone,
    h.isolated⟩

theorem conserved_rollback : (w.step decode maxsize .rollback).Conserved decode c₀ := by
  unfold step
  dsimp only
  split
  · exact conserved_undone h w.up
  · exact h

theorem conserved_crash : (w.step decode maxsize .crash).Conserved decode c₀ := by
  unfold step
  dsimp only
  split
  · exact conserved_undone h false
  · exact h

/-- What the restart leaves: nothing in flight, and the reader at the cursor. -/
theorem conserved_reopened (feed : SpoolFeed I) {dead_letter : List (Nat × String)} {stored : Nat}
    (hdown : w.up = false) (hcursor : feed.cursor = stored) (hle : w.stored ≤ stored)
    (hdrawn : stored = c₀ ∨ stored ∈ w.spool.map (·.1))
    (hsettled : ∀ r ∈ w.spool, ∀ event, decode r.2 = .event event → c₀ < r.1 → r.1 ≤ stored →
      r.1 ∈ w.applied ∨ r.1 ∈ dead_letter.map (·.1))
    (hiso : stored < feed.isolate_until →
      ∃ r ∈ w.spool, r.1 = feed.isolate_until ∧ ∃ event, decode r.2 = .event event) :
    { w with dead_letter := dead_letter, stored := stored, feed := feed }.reopen.Conserved decode c₀ := by
  obtain ⟨htaken, hstaged⟩ := h.down hdown
  refine ⟨h.sorted, hcursor, h.opened.trans hle, fun pos hp => ?_, ?_, rfl, fun _ hp => absurd hp List.not_mem_nil,
    .nil, fun _ hp => absurd hp List.not_mem_nil, htaken.le, ?_, fun _ hp => ?_, hdrawn,
    fun _ hs => absurd hs (by simp [reopen]), fun hup => absurd hup (by simp [reopen]), hsettled,
    ⟨h.applied.1, fun s hs => ⟨(h.applied.2 s hs).1, (h.applied.2 s hs).2.trans hle⟩⟩,
    fun _ hp => absurd hp List.not_mem_nil, hiso⟩
  · obtain rfl := Option.mem_some.mp hp
    exact ⟨hcursor.ge, .inl hcursor⟩
  · show [] = events decode w.spool stored feed.cursor
    rw [hcursor, events_none]
  · show w.effects = (([] : List (QueueItem I)).take w.taken).map (·.record)
    rw [h.effects, htaken]
    rfl
  · have hp : _ ∈ w.staged := hp
    rw [hstaged] at hp
    exact absurd hp (by simp)

/-- The last record in flight, if any is. -/
theorem Conserved.in_flight : w.feed.pending.length - w.feed.queue.length = w.batch.length := by
  have := congrArg List.length h.held
  rw [List.length_map, List.length_append] at this
  omega

/-- The one record in flight during an isolation: no event before it is left, and the isolation is up to
it or to a later one. -/
theorem Conserved.suspect {p : QueueItem I × Nat} {rest : List (QueueItem I × Nat)}
    (hiso : w.feed.cursor < w.feed.isolate_until) (hone : w.batch.length = 1) (hpend : w.feed.pending = p :: rest) :
    w.batch = [p.1] ∧ p.1.record = p.2 ∧ w.stored < p.2 ∧ p.2 ≤ w.feed.isolate_until ∧
      p.2 ∈ w.spool.map (·.1) ∧
      ∀ r ∈ w.spool, ∀ event, decode r.2 = .event event → w.stored < r.1 → p.2 ≤ r.1 := by
  obtain ⟨item, hbatch⟩ := List.length_eq_one_iff.mp hone
  have hitem : p.1 = item := by
    have := h.held
    rw [hpend, hbatch] at this
    exact (List.cons.inj this).1
  have hmem : p ∈ w.feed.pending := hpend ▸ List.mem_cons_self
  obtain ⟨hlo, hhi, hspool⟩ := h.range hmem
  have hfirst : ∀ r ∈ w.spool, ∀ event, decode r.2 = .event event → w.stored < r.1 → p.2 ≤ r.1 := by
    intro r hr event hd hlo'
    rcases le_or_gt r.1 (w.pump.getD w.stored) with hread | hread
    · have hin : (r.1, event) ∈ events decode w.spool w.stored (w.pump.getD w.stored) :=
        mem_events.mpr ⟨r.2, hr, hd, hlo', hread⟩
      rw [← h.pending] at hin
      obtain ⟨q, hq, he⟩ := List.mem_map.mp hin
      have he : q.2 = r.1 := congrArg Prod.fst he
      rcases List.mem_cons.mp (hpend ▸ hq) with rfl | hq
      · exact he.le
      · exact ((List.pairwise_cons.mp (hpend ▸ h.ordered)).1 q hq).le.trans_eq he
    · exact hhi.trans hread.le
  -- the record that the isolation goes up to is an event itself
  obtain ⟨r, hr, he, event, hd⟩ := h.isolated (h.cursor ▸ hiso)
  exact ⟨hitem ▸ hbatch, h.record p hmem, hlo, he ▸ hfirst r hr event hd (he ▸ h.cursor ▸ hiso), hspool, hfirst⟩

theorem Conserved.dead_settled {p : QueueItem I × Nat}
    (hfirst : ∀ r ∈ w.spool, ∀ event, decode r.2 = .event event → w.stored < r.1 → p.2 ≤ r.1) {reason : String} :
    ∀ r ∈ w.spool, ∀ event, decode r.2 = .event event → c₀ < r.1 → r.1 ≤ p.2 →
      r.1 ∈ w.applied ∨ r.1 ∈ (w.dead p.2 reason).dead_letter.map (·.1) := by
  intro r hr event hd hc hle
  unfold dead
  rw [List.map_append]
  rcases le_or_gt r.1 w.stored with hold | hnew
  · exact (h.settled r hr event hd hc hold).imp (fun hm => hm) (List.mem_append_left _)
  · have := hfirst r hr event hd hnew
    exact .inr (List.mem_append_right _ (List.mem_singleton.mpr (le_antisymm hle this)))

/-- A restart sets one record aside at most: the one that the engine had when it ended. -/
theorem Conserved.rewound (hdown : w.up = false) (reason : String) :
    (w.rewind reason).Conserved decode c₀ ∧ w.stored ≤ (w.rewind reason).stored ∧
      ((w.rewind reason).dead_letter = w.dead_letter ∨ ∃ item reason', w.batch = [item] ∧
        w.stored < item.record ∧ item.record ≤ w.feed.isolate_until ∧
        (w.rewind reason).dead_letter = w.dead_letter ++ [(item.record, reason')]) := by
  have hkeep : w.reopen.Conserved decode c₀ :=
    conserved_reopened h w.feed hdown h.cursor le_rfl h.drawn h.settled h.isolated
  unfold rewind isolate
  rw [h.in_flight]
  dsimp only
  split
  · split
    · rename_i halone
      simp only [Bool.and_eq_true, decide_eq_true_eq] at halone
      cases hpend : w.feed.pending with
      | nil => exact ⟨hkeep, le_rfl, .inl rfl⟩
      | cons p rest =>
        obtain ⟨hbatch, hrecord, hlo, hhi, hspool, hfirst⟩ := h.suspect halone.1 halone.2 hpend
        have hcursor : max w.feed.cursor p.2 = p.2 := max_eq_right (h.cursor.le.trans hlo.le)
        refine ⟨?_, hlo.le, .inr ⟨p.1, _, hbatch, hrecord ▸ hlo, hrecord ▸ hhi, by rw [hrecord]; rfl⟩⟩
        exact conserved_reopened h { w.feed with cursor := max w.feed.cursor p.2 } hdown hcursor hlo.le
          (.inr hspool) (h.dead_settled hfirst) (fun hiso => h.isolated (hlo.trans hiso))
    · rename_i hruns _
      simp only [Bool.and_eq_true, decide_eq_true_eq] at hruns
      have hlt : w.batch.length - 1 < w.feed.pending.length := by
        have := congrArg List.length h.held
        rw [List.length_map, List.length_append] at this
        omega
      rw [List.getElem?_eq_getElem hlt]
      have hmem : (w.feed.pending[w.batch.length - 1].2, w.feed.pending[w.batch.length - 1].1.event) ∈
          events decode w.spool w.stored (w.pump.getD w.stored) :=
        h.pending ▸ List.mem_map_of_mem (List.getElem_mem hlt)
      obtain ⟨payload, hr, hd, -, -⟩ := mem_events.mp hmem
      refine ⟨?_, le_rfl, .inl rfl⟩
      exact conserved_reopened h { w.feed with isolate_until := w.feed.pending[w.batch.length - 1].2 }
        hdown h.cursor le_rfl h.drawn h.settled (fun _ => ⟨_, hr, rfl, _, hd⟩)
  · exact ⟨hkeep, le_rfl, .inl rfl⟩

/-- What a restart does about what counts as in the engine's hands: the one record of an isolation is set aside, and
otherwise all up to the last are to be replayed one at a time. -/
structure Isolates (w w' : Pipeline P I) (reason : String) : Prop where
  idle : w.batch = [] → w'.dead_letter = w.dead_letter ∧ w'.stored = w.stored ∧
    w'.feed.isolate_until = w.feed.isolate_until
  alone : ∀ item, w.batch = [item] → w.stored < w.feed.isolate_until →
    w'.dead_letter = w.dead_letter ++ [(item.record, "the engine crashed on it (" ++ reason ++ ")")] ∧
      w'.stored = item.record ∧ w'.feed.isolate_until = w.feed.isolate_until
  replay : ∀ item, w.batch.getLast? = some item → (w.batch.length = 1 → w.feed.isolate_until ≤ w.stored) →
    w'.dead_letter = w.dead_letter ∧ w'.stored = w.stored ∧ w'.feed.isolate_until = item.record
  reads : w'.pump = some w'.stored ∧ w'.batch = [] ∧ w'.feed.queue = [] ∧ w'.feed.pending = []

theorem Conserved.isolates (hdown : w.up = false) (hruns : 0 < w.feed.runs) (reason : String) :
    w.Isolates (w.rewind reason) reason := by
  have hempty : w.batch = [] → w.isolate reason = w := fun hb => by
    unfold isolate
    rw [h.in_flight, hb]
    exact if_neg (by simp)
  have hlast (item : QueueItem I) (hitem : w.batch.getLast? = some item) :
      w.feed.pending[w.batch.length - 1]? = some (item, item.record) := by
    have hpos : 0 < w.batch.length := List.length_pos_of_ne_nil fun hb => by simp [hb] at hitem
    rw [List.getLast?_eq_getElem?] at hitem
    have hheld : (w.feed.pending.map (·.1))[w.batch.length - 1]? = some item := by
      rw [h.held, List.getElem?_append_left (by omega), hitem]
    rw [List.getElem?_map, Option.map_eq_some_iff] at hheld
    obtain ⟨p, hp, rfl⟩ := hheld
    rw [hp, h.record p (List.mem_of_getElem? hp)]
  have halone (item : QueueItem I) (hb : w.batch = [item]) (hiso : w.stored < w.feed.isolate_until) :
      w.isolate reason = (w.dead item.record reason).advance item.record := by
    have hp := hlast item (by rw [hb]; rfl)
    rw [hb] at hp
    unfold isolate
    rw [h.in_flight, hb, h.cursor]
    simp only [List.length_singleton, hruns, hiso, decide_true, Bool.and_self, Nat.zero_lt_one, if_true]
    cases hpend : w.feed.pending with
    | nil => rw [hpend] at hp; cases hp
    | cons p rest =>
      rw [hpend] at hp
      obtain rfl := Option.some.inj hp
      rfl
  have hreplay (item : QueueItem I) (hitem : w.batch.getLast? = some item)
      (hout : w.batch.length = 1 → w.feed.isolate_until ≤ w.stored) :
      w.isolate reason = { w with feed := { w.feed with isolate_until := item.record } } := by
    have hpos : 0 < w.batch.length := List.length_pos_of_ne_nil fun hb => by simp [hb] at hitem
    have hno : ¬ (decide (w.stored < w.feed.isolate_until) && decide (w.batch.length = 1)) = true := by
      simp only [Bool.and_eq_true, decide_eq_true_eq]
      exact fun hboth => absurd (hout hboth.2) (not_le.mpr hboth.1)
    unfold isolate
    rw [h.in_flight, h.cursor]
    dsimp only
    rw [if_pos (by simp [hruns, hpos]), if_neg hno, hlast item hitem]
  refine ⟨fun hb => ?_, fun item hb hiso => ?_, fun item hitem hout => ?_,
    congrArg some (h.rewound hdown reason).1.cursor, rfl, rfl, rfl⟩
  · unfold rewind
    rw [hempty hb]
    exact ⟨rfl, rfl, rfl⟩
  · unfold rewind
    rw [halone item hb hiso]
    exact ⟨rfl, rfl, rfl⟩
  · unfold rewind
    rw [hreplay item hitem hout]
    exact ⟨rfl, rfl, rfl⟩

theorem conserved_dead (seq : Nat) (reason : String) : (w.dead seq reason).Conserved decode c₀ := by
  refine ⟨h.sorted, h.cursor, h.opened, h.reader, h.pending, h.held, h.record, h.ids, h.seqs, h.taken, h.effects,
    h.staged, h.drawn, h.setting, h.down, fun r hr event hd hc hle => ?_, h.applied, h.alone, h.isolated⟩
  refine (h.settled r hr event hd hc hle).imp (fun hm => hm) fun hm => ?_
  unfold dead
  rw [List.map_append]
  exact List.mem_append_left _ hm

theorem conserved_strand (hdown : w.up = false) : w.strand.Conserved decode c₀ := by
  obtain ⟨htaken, hstaged⟩ := h.down hdown
  refine ⟨h.sorted, h.cursor, h.opened, h.reader, h.pending, (List.append_nil _).symm, h.record, h.ids, h.seqs,
    htaken.le.trans (Nat.zero_le _), ?_, fun _ hp => ?_, h.drawn, fun _ hs => absurd hs (by simp [strand]),
    fun _ => ⟨htaken, hstaged⟩, h.settled, h.applied, h.alone, h.isolated⟩
  · show w.effects = ((w.feed.pending.map (·.1)).take w.taken).map (·.record)
    rw [h.effects, htaken]
    rfl
  · have hp : _ ∈ w.staged := hp
    rw [hstaged] at hp
    exact absurd hp (by simp)

theorem Conserved.abandoned (hdown : w.up = false) (reason : String) :
    (w.abandon reason).Conserved decode c₀ ∧ (w.abandon reason).stored = w.stored ∧
      ((w.abandon reason).dead_letter = w.dead_letter ∨ ∃ item reason', w.batch = [item] ∧
        w.stored < item.record ∧ item.record ≤ w.feed.isolate_until ∧
        (w.abandon reason).dead_letter = w.dead_letter ++ [(item.record, reason')]) := by
  unfold abandon
  rw [h.in_flight]
  dsimp only
  split
  · rename_i halone
    simp only [Bool.and_eq_true, decide_eq_true_eq] at halone
    cases hpend : w.feed.pending with
    | nil => exact ⟨h, rfl, .inl rfl⟩
    | cons p rest =>
      obtain ⟨hbatch, hrecord, hlo, hhi, -, -⟩ := h.suspect halone.1.2 halone.2 hpend
      exact ⟨conserved_strand (conserved_dead h p.2 reason) hdown, rfl,
        .inr ⟨p.1, _, hbatch, hrecord ▸ hlo, hrecord ▸ hhi, by rw [hrecord]; rfl⟩⟩
  · exact ⟨h, rfl, .inl rfl⟩

theorem conserved_step (op : IntakeOp P) : (w.step decode maxsize op).Conserved decode c₀ := by
  cases op with
  | write seq payload => exact conserved_write h seq payload
  | deliver id => exact conserved_deliver h id
  | settle => exact conserved_settle h
  | take => exact conserved_take h
  | process => exact conserved_process h
  | stage => exact conserved_stage h
  | commit => exact conserved_commit h
  | rollback => exact conserved_rollback h
  | crash => exact conserved_crash h
  | rewind reason =>
    unfold step
    dsimp only
    split
    · exact h
    · rename_i hup
      exact (h.rewound (by simpa using hup) reason).1
  | rewind_fails reason =>
    unfold step
    dsimp only
    split
    · exact h
    · rename_i hup
      exact (h.abandoned (by simpa using hup) reason).1

/-- The database's cursor never goes back. -/
theorem Conserved.forward (op : IntakeOp P) : w.stored ≤ (w.step decode maxsize op).stored := by
  cases op with
  | write seq payload =>
    unfold step
    dsimp only
    split <;> exact le_rfl
  | deliver id =>
    simp only [step, deliver]
    repeat' split
    all_goals exact le_rfl
  | settle =>
    unfold step
    dsimp only
    split
    · rename_i seq hset
      exact (h.reader seq (h.setting seq hset).2.1).1
    · exact le_rfl
  | commit =>
    unfold step
    dsimp only
    split
    · rename_i position hstaged
      obtain ⟨-, p, hp, rfl⟩ := h.position hstaged
      exact (h.range (List.mem_of_getElem? hp)).1.le
    · exact le_rfl
  | rewind reason =>
    unfold step
    dsimp only
    split
    · exact le_rfl
    · rename_i hup
      exact (h.rewound (by simpa using hup) reason).2.1
  | rewind_fails reason =>
    unfold step
    dsimp only
    split
    · exact le_rfl
    · rename_i hup
      exact (h.abandoned (by simpa using hup) reason).2.1.ge
  | take | process | stage | rollback | crash =>
    simp only [step, undo]
    repeat' split
    all_goals exact le_rfl

/-- A record that a step sets aside: one that is not valid, or the only one that the engine had when it
ended, where the isolation has come to it. -/
def SetAside (decode : P → Result I) (w : Pipeline P I) : IntakeOp P → Nat × String → Prop
  | .deliver _, (seq, reason) => ∃ payload, (seq, payload) ∈ w.spool ∧ decode payload = .invalid reason
  | .rewind _, (seq, _) | .rewind_fails _, (seq, _) => w.up = false ∧ w.stored < seq ∧ seq ≤ w.feed.isolate_until ∧
      ∃ item, w.batch = [item] ∧ item.record = seq
  | _, _ => False

theorem Conserved.set_aside (op : IntakeOp P) : (w.step decode maxsize op).dead_letter = w.dead_letter ∨
    ∃ entry, (w.step decode maxsize op).dead_letter = w.dead_letter ++ [entry] ∧ w.SetAside decode op entry := by
  cases op with
  | deliver id =>
    simp only [step, deliver]
    split
    · split
      · exact .inl rfl
      · rename_i seq payload hr
        cases hd : decode payload with
        | ignored => exact .inl rfl
        | invalid reason =>
          dsimp only
          split
          · exact .inr ⟨(seq, reason), rfl, payload, List.mem_of_find?_eq_some hr, hd⟩
          · exact .inl rfl
        | event event =>
          dsimp only
          repeat' split
          all_goals exact .inl rfl
    · exact .inl rfl
  | rewind reason =>
    unfold step
    dsimp only
    split
    · exact .inl rfl
    · rename_i hup
      have hup : w.up = false := by simpa using hup
      rcases (h.rewound hup reason).2.2 with hsame | ⟨item, reason', hbatch, hlo, hhi, hset⟩
      · exact .inl hsame
      · exact .inr ⟨(item.record, reason'), hset, hup, hlo, hhi, item, hbatch, rfl⟩
  | rewind_fails reason =>
    unfold step
    dsimp only
    split
    · exact .inl rfl
    · rename_i hup
      have hup : w.up = false := by simpa using hup
      rcases (h.abandoned hup reason).2.2 with hsame | ⟨item, reason', hbatch, hlo, hhi, hset⟩
      · exact .inl hsame
      · exact .inr ⟨(item.record, reason'), hset, hup, hlo, hhi, item, hbatch, rfl⟩
  | write | settle | take | process | stage | commit | rollback | crash =>
    refine .inl ?_
    simp only [step, undo, advance]
    repeat' split
    all_goals rfl

/-- What a step does about the isolation: only a restart begins one. -/
def Replayed (w w' : Pipeline P I) : IntakeOp P → Prop
  | .rewind reason => w.up = false → 0 < w.feed.runs → w.Isolates w' reason
  | _ => w'.feed.isolate_until = w.feed.isolate_until

theorem Conserved.replayed (op : IntakeOp P) : w.Replayed (w.step decode maxsize op) op := by
  cases op with
  | rewind reason =>
    intro hdown hruns
    have hstep : w.step decode maxsize (.rewind reason) = w.rewind reason := if_neg (by simp [hdown])
    exact hstep ▸ h.isolates hdown hruns reason
  | deliver id =>
    show (w.deliver decode maxsize id).feed.isolate_until = _
    unfold deliver
    repeat' split
    all_goals rfl
  | commit =>
    show (w.step decode maxsize .commit).feed.isolate_until = _
    unfold step
    dsimp only
    split
    · unfold SpoolFeed.committed
      split <;> rfl
    · rfl
  | rewind_fails reason =>
    show (w.step decode maxsize (.rewind_fails reason)).feed.isolate_until = _
    simp only [step, abandon]
    repeat' split
    all_goals rfl
  | write | settle | take | process | stage | rollback | crash =>
    simp only [Replayed, step, undo, advance]
    repeat' split
    all_goals rfl

end Pipeline
namespace Pipeline
variable (decode) (maxsize c₀ : Nat)

theorem run_conserved (ops : List (IntakeOp P)) :
    (Runs.run (step decode maxsize) (opened c₀) ops).Conserved decode c₀ := by
  induction ops using List.reverseRecOn with
  | nil => exact conserved_opened c₀
  | append_singleton ops op ih =>
    rw [Runs.run_append]
    exact conserved_step ih op

/-- In every run: a step sets aside one record at most; a restart sets aside the one that the engine was given alone,
and has those that it had in hand replayed one at a time otherwise; an event that the cursor has passed was committed
once, or set aside; the cursor does not go back; and what is pending is what the pump has handed on past
the cursor, in order, its head in the engine's hands and the rest on the queue. -/
theorem run_isolated (ops : List (IntakeOp P)) (op : IntakeOp P) :
    let w := Runs.run (step decode maxsize) (opened c₀) ops
    let w' := w.step decode maxsize op
    (w'.dead_letter = w.dead_letter ∨
      ∃ entry, w'.dead_letter = w.dead_letter ++ [entry] ∧ w.SetAside decode op entry) ∧ w.Replayed w' op ∧
    (w.applied.Pairwise (· < ·) ∧ (∀ s ∈ w.applied, s ≤ w.stored) ∧
      ∀ r ∈ w.spool, ∀ event, decode r.2 = .event event → c₀ < r.1 →
        r.1 ∈ w.applied ∨ r.1 ∈ w.dead_letter.map (·.1) ∨ w.stored < r.1) ∧
    (w.feed.cursor = w.stored ∧ w.stored ≤ w'.stored) ∧
    (w.feed.pending.map (fun p => (p.2, p.1.event)) = events decode w.spool w.stored (w.pump.getD w.stored) ∧
      w.feed.pending.map (·.1) = w.batch ++ w.feed.queue ∧
      ∀ p ∈ w.feed.pending.tail, w.feed.isolate_until < p.2) := by
  intro w w'
  have h : w.Conserved decode c₀ := run_conserved decode maxsize c₀ ops
  refine ⟨h.set_aside op, h.replayed op, ⟨h.applied.1, fun s hs => (h.applied.2 s hs).2, fun r hr event hd hc => ?_⟩,
    ⟨h.cursor, h.forward op⟩, h.pending, h.held, h.alone⟩
  rcases le_or_gt r.1 w.stored with hle | hlt
  · exact (h.settled r hr event hd hc hle).imp (fun hm => hm) .inl
  · exact .inr (.inr hlt)

/-- Three records are in the engine's hands when it ends. -/
def crashed : List (IntakeOp Unit) := [.rewind "", .write 1 (), .write 2 (), .write 3 (), .deliver 1, .deliver 2,
  .deliver 3, .take, .take, .take, .crash]

/-- The engine is given one record, and ends. -/
def crashes_alone : List (IntakeOp Unit) := [.deliver 4, .take, .crash, .rewind "again"]

theorem run_isolated_crashed :
    (Runs.run (step (fun _ => .event ()) 0) (opened 0) (crashed ++ [.rewind "first"])).feed.isolate_until = 3 := by
  obtain ⟨-, hreplayed, -⟩ := run_isolated (fun _ : Unit => .event ()) 0 0 crashed (.rewind "first")
  have hisolates := hreplayed (by decide +kernel) (by decide +kernel)
  rw [Runs.run_append]
  exact (hisolates.replay ⟨3, (), 3⟩ rfl (by decide +kernel)).2.2

/-- One isolation sets two records aside, each of which ends the engine. -/
theorem isolation_sets_two_aside :
    ¬ ∀ (before during : List (IntakeOp Unit)), let w := Runs.run (step (fun _ => .event ()) 0) (opened 0) before
      (∀ n ≤ during.length, (Runs.run (step (fun _ => .event ()) 0) w (during.take n)).feed.isolate_until =
        w.feed.isolate_until) →
      (Runs.run (step (fun _ => .event ()) 0) w during).stored < w.feed.isolate_until →
      (Runs.run (step (fun _ => .event ()) 0) w during).dead_letter.length ≤ w.dead_letter.length + 1 := by
  intro h
  have hone := h (crashed ++ [.rewind "first"]) (crashes_alone ++ crashes_alone) (by decide +kernel) (by decide +kernel)
  exact absurd hone (by decide +kernel)

end Pipeline
end NetCoreNoc.Intake

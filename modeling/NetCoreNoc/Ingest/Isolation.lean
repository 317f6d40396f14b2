import Mathlib
import NetCoreNoc.Ingest.Decoder

/-! The replies of the decoder pool against a receiver in the main process, over any pattern of crashes. -/
namespace NetCoreNoc.Ingest.Decoding
open Json Records Tables Runs
open Spool (Bytes)

/-! What the main process reads of an answer -/

/-- The counters that the main process keeps are the ones of a receiver. -/
structure Counted.Of {F : Type} (c : Counted) (r : Receiver F) : Prop where
  accepted : c.accepted = r.accepted
  quarantined : c.quarantined = r.quarantined
  reasons : ∀ reason : String, c.reasons.count (lit reason) = r.reasons.count reason

theorem keys_lit {V : Type} (t : Table String ℕ) (f : ℕ → V) :
    ((t.entries.map fun e => (lit e.1, f e.2)).map Prod.fst).Nodup := by
  rw [List.map_map]
  have hnodup := t.nodup.map lit_injective
  rwa [List.map_map] at hnodup

theorem backEntries_lit {F V : Type} (l : List (String × V)) (f : V → ℤ) :
    backEntries (F := F) (l.map fun e => (lit e.1, .int (f e.2))) = l.map fun e => (lit e.1, .int (f e.2)) := by
  induction l with
  | nil => rfl
  | cons e l ih => rw [List.map_cons, backEntries, ih, joined_lit, back]

theorem wholes_lit {F : Type} (l : List (String × ℕ)) :
    wholes (F := F) (l.map fun e => (lit e.1, .int e.2)) = some (l.map fun e => (lit e.1, (e.2 : ℤ))) := by
  induction l with
  | nil => rfl
  | cons e l ih =>
    rw [List.map_cons, wholes, ih]
    rfl

theorem counters_back {F : Type} (r : Receiver F) : ∃ c : Counted, c.Of r ∧
    counters (back (F := F) (.obj [(lit "accepted", .int r.accepted), (lit "quarantined", .int r.quarantined)]))
      (back (.obj (r.reasons.entries.map fun e => (lit e.1, .int e.2)))) = some c := by
  have hreasons : back (F := F) (.obj (r.reasons.entries.map fun e => (lit e.1, .int e.2))) =
      .obj (r.reasons.entries.map fun e => (lit e.1, .int e.2)) := by
    rw [back, backEntries_lit, dict_eq (keys_lit r.reasons fun n => (Doc.int n : Doc F))]
  have hcounts : back (F := F) (.obj [(lit "accepted", .int r.accepted), (lit "quarantined", .int r.quarantined)]) =
      .obj [(lit "accepted", .int r.accepted), (lit "quarantined", .int r.quarantined)] := by
    have hback := backEntries_lit (F := F) [("accepted", (r.accepted : ℤ)), ("quarantined", (r.quarantined : ℤ))] id
    rw [back]
    refine congrArg Doc.obj ((congrArg dict hback).trans (dict_eq ?_))
    simp only [List.map_cons, List.map_nil]
    decide
  rw [hreasons, hcounts]
  refine ⟨⟨r.accepted, r.quarantined, Table.empty.merge 0 (fun n _ => n)
    (r.reasons.entries.map fun e => (lit e.1, (e.2 : ℤ)))⟩, ⟨rfl, rfl, fun reason => ?_⟩, ?_⟩
  · rw [Table.count, Table.get_merge _ _ _ _ (keys_lit r.reasons Nat.cast), lookup_map lit_injective Nat.cast,
      Table.get_empty, Table.count]
    change (((r.reasons.get reason).map _).map _ |>.or none).getD 0 = _
    cases r.reasons.get reason <;> rfl
  · have hne : (lit "quarantined" == lit "accepted") = false := beq_false_of_ne (by decide)
    simp only [counters, List.lookup_cons, beq_self_eq_true, hne, wholes_lit]
    rfl

namespace Setting
variable {F : Type} [PyFloat F] [PyPack F] [PyConvert F] (S : Setting F)

/-- What the main process reads of what the process makes of a record, any record being raw to it; none, where it is
stopped. -/
def answered (r : Receiver F) (payload : Bytes) : Option (Result F × Receiver F) :=
  match S.unraw payload with
  | .error e => some (.text (not_raw (message e)), r)
  | .ok d => (S.datagram_received r d).map fun out => (.event out.1, out.2)

def answers (r : Receiver F) : List Bytes → Option (List (Result F) × Receiver F)
  | [] => some ([], r)
  | payload :: payloads =>
    match S.answered r payload with
    | none => none
    | some (result, r) => (answers r payloads).map fun out => (result :: out.1, out.2)

variable {payload : Bytes}

omit [PyConvert F] in
theorem unraw_finite {d : Datagram F} (h : S.unraw payload = .ok d) :
    PyFloat.isfinite d.ts = true := by
  unfold unraw Records.unraw at h
  split at h
  · cases h
  split at h
  · cases h
  split at h
  · cases h
  · rename_i hbad
    obtain rfl := Except.ok.inj h
    exact Bool.not_eq_false _ ▸ (not_or.mp hbad).2

variable {r r' : Receiver F}

omit [PyPack F] in
theorem read_item {d : Datagram F} {item : QueueItem F} (hts : PyFloat.isfinite d.ts = true)
    (h : S.datagram_received r d = some (item, r')) : read_entry (back (as_list item)) = .ok (.event item) := by
  have hitem : item.ts = d.ts ∧ item.joined = item := by
    rcases received_cases h with ⟨e, usm, rfl, -⟩ | ⟨q, usm, -, rfl, -⟩
    · exact ⟨rfl, (joined_of d.ts).1 e⟩
    · exact ⟨rfl, (joined_of d.ts).2 q⟩
  have hdecode : Records.decode (back (as_list item)) = .ok item := by
    rw [decode_back (hitem.1 ▸ hts), hitem.2]
  cases item with
  | trap item => exact congrArg (caught _) hdecode
  | packet item => exact congrArg (caught _) hdecode

theorem read_record (r : Receiver F) (payload : Bytes) :
    S.decode_record r payload = none ∧ S.answered r payload = none ∨ ∃ entry result r',
      S.decode_record r payload = some (entry, r') ∧ S.answered r payload = some (result, r') ∧
        read_entry (back entry) = .ok result := by
  unfold decode_record answered
  cases hraw : S.unraw payload with
  | error e =>
    have hmessage : joined (message e) = message e := by
      cases e with
      | value text => exact joined_lit text
      | _ => rfl
    refine .inr ⟨_, _, r, rfl, rfl, ?_⟩
    rw [back, read_entry, hmessage]
  | ok d =>
    dsimp only
    cases hitem : S.datagram_received r d with
    | none => exact .inl ⟨rfl, rfl⟩
    | some out => exact .inr ⟨_, _, out.2, rfl, rfl, S.read_item (S.unraw_finite hraw) hitem⟩

theorem read_batch (r : Receiver F) (payloads : List Bytes) :
    S.decode_batch r payloads = none ∧ S.answers r payloads = none ∨ ∃ decoded results r',
      S.decode_batch r payloads = some (decoded, r') ∧ S.answers r payloads = some (results, r') ∧
        (backItems decoded).length = payloads.length ∧ read_entries (backItems decoded) = .ok results := by
  induction payloads generalizing r with
  | nil => exact .inr ⟨[], [], r, rfl, rfl, rfl, rfl⟩
  | cons payload payloads ih =>
    rw [decode_batch, answers]
    rcases S.read_record r payload with ⟨hdecode, hanswer⟩ | ⟨entry, result, r', hdecode, hanswer, hread⟩
    · exact .inl ⟨by rw [hdecode], by rw [hanswer]⟩
    · rw [hdecode, hanswer]
      dsimp only
      rcases ih r' with ⟨hbatch, hanswers⟩ | ⟨decoded, results, r'', hbatch, hanswers, hlength, hreads⟩
      · exact .inl ⟨by rw [hbatch]; rfl, by rw [hanswers]; rfl⟩
      · refine .inr ⟨entry :: decoded, result :: results, r'', by rw [hbatch]; rfl, by rw [hanswers]; rfl, ?_, ?_⟩
        · rw [backItems, List.length_cons, List.length_cons, hlength]
        · rw [backItems, read_entries, hread, ok_bind, hreads, ok_bind]

variable {payloads : List Bytes}

/-- An exchange fails, or is answered for every record, and the counts of the process become known. -/
theorem roundtrip_cases (d : Decoder F) (hlength : ∀ p ∈ payloads, p.length < 2 ^ 32)
    (dies : Bool) :
    (dies = true ∨ S.answers d.process payloads = none) ∧ S.roundtrip d payloads dies = (d, .error .decoder_error) ∨
      dies = false ∧ ∃ results r c, S.answers d.process payloads = some (results, r) ∧ c.Of r ∧
        S.roundtrip d payloads dies = ({ d with process := r, counted := c }, .ok results) := by
  obtain ⟨blob, hblob, hunframe⟩ := Option.bind_eq_some_iff.mp ((unframe_frames payloads).mpr hlength)
  unfold roundtrip
  rw [hblob]
  cases dies with
  | true => exact .inl ⟨.inl rfl, rfl⟩
  | false =>
    simp only [Bool.false_eq_true, if_false, hunframe, Option.bind_some]
    rcases S.read_batch d.process payloads with ⟨hbatch, hanswers⟩ |
      ⟨decoded, results, r, hbatch, hanswers, hsize, hreads⟩
    · exact .inl ⟨.inr hanswers, by rw [hbatch]⟩
    · obtain ⟨c, hc, hcounters⟩ := counters_back r
      have htag : joined (lit "e") = lit "e" := joined_lit "e"
      refine .inr ⟨trivial, results, r, c, hanswers, hc, ?_⟩
      rw [hbatch]
      simp only [answer, back, backItems, htag] at hcounters ⊢
      simp only [read_answer, hsize, true_and, if_true, hcounters, Option.map_some, hreads, Except.mapError]

end Setting

/-! What the pool is measured by -/

/-- A record that is already an event, whose time is an integer beyond every float. -/
def Overflows (F : Type) [PyFloat F] [PyConvert F] (payload : Bytes) : Prop :=
  is_raw payload = false ∧ load (F := F) payload = .error .overflow

/-- A reply of exactly one result for each record, in order, each as it should be. -/
def Replies {F : Type} (reply : Except Fault (List (Result F))) (expected : List (Except Raised (Result F))) : Prop :=
  ∃ results, reply = .ok results ∧ expected = results.map .ok

section
variable {F : Type} {fault : Fault} {reply : Except Fault (List (Result F))}
  {expected : List (Except Raised (Result F))}

theorem not_replies_error : ¬ Replies (.error fault) expected := nofun

theorem replies_cons {result : Result F} {x : Except Raised (Result F)} :
    Replies (reply.map ([result] ++ ·)) (x :: expected) ↔ x = .ok result ∧ Replies reply expected := by
  cases reply with
  | error e => exact iff_of_false not_replies_error fun h => not_replies_error h.2
  | ok results =>
    constructor
    · rintro ⟨_, he, hx⟩
      obtain rfl := Except.ok.inj he
      obtain ⟨hx, hrest⟩ := List.cons.inj hx
      exact ⟨hx, results, rfl, hrest⟩
    · rintro ⟨rfl, _, he, rfl⟩
      obtain rfl := Except.ok.inj he
      exact ⟨_, rfl, rfl⟩

variable [PyFloat F] [PyConvert F]

theorem local_result_cases (payload : Bytes) : load (F := F) payload = .error .overflow ∧
    local_result (F := F) payload = .error .overflow ∨
      load (F := F) payload ≠ .error .overflow ∧
        ∃ result : Result F, local_result payload = .ok result ∧ ∀ s, result ≠ .text s := by
  unfold local_result caught
  cases load (F := F) payload with
  | ok item => exact .inr ⟨nofun, _, rfl, nofun⟩
  | error e =>
    cases e with
    | overflow => exact .inl ⟨rfl, rfl⟩
    | value text => exact .inr ⟨nofun, _, rfl, nofun⟩
    | binascii => exact .inr ⟨nofun, _, rfl, nofun⟩

theorem replies_local (payloads : List Bytes) : Replies ((local_results (F := F) payloads).mapError .raised)
    (payloads.map local_result) ↔ ∀ p ∈ payloads, load (F := F) p ≠ .error .overflow := by
  induction payloads with
  | nil => exact iff_of_true ⟨[], rfl, rfl⟩ nofun
  | cons p payloads ih =>
    rw [local_results, List.map_cons, List.forall_mem_cons, ← ih]
    rcases local_result_cases (F := F) p with ⟨hload, hlocal⟩ | ⟨hload, result, hlocal, -⟩
    · rw [hlocal]
      exact iff_of_false not_replies_error fun h => h.1 hload
    · rw [hlocal, ok_bind, and_iff_right hload]
      have hmap : ((local_results (F := F) payloads >>= fun results => .ok (result :: results)).mapError Fault.raised) =
          ((local_results payloads).mapError .raised).map ([result] ++ ·) := by
        cases local_results (F := F) payloads <;> rfl
      rw [hmap, replies_cons]
      exact and_iff_right rfl

end

/-! What is counted -/

/-- The processes, those that ended and the one that runs. -/
def Decoder.processes {F : Type} (d : Decoder F) : List (Receiver F) := d.ended ++ [d.process]

/-- The items that the processes handed on. -/
def Decoder.sent {F : Type} (d : Decoder F) : List (QueueItem F) := d.processes.flatMap (·.sent)

/-- Counters are the sums of those of some processes. -/
structure Counted.Sums {F : Type} (c : Counted) (processes : List (Receiver F)) : Prop where
  accepted : c.accepted = (processes.map fun r => (r.accepted : ℤ)).sum
  quarantined : c.quarantined = (processes.map fun r => (r.quarantined : ℤ)).sum
  reasons : ∀ reason : String, c.reasons.count (lit reason) = (processes.map fun r => (r.reasons.count reason : ℤ)).sum

/-- The counters are the sums of what the processes counted, each of them every item that it handed on, once. -/
structure Decoder.Balanced {F : Type} (d : Decoder F) : Prop where
  sums : d.counts.Sums d.processes
  exact : ∀ r ∈ d.processes, r.Exact

theorem Decoder.sent_restart {F : Type} (d : Decoder F) : d.restart.sent = d.sent := by
  change (d.processes ++ [({} : Receiver F)]).flatMap (·.sent) = d.sent
  rw [List.flatMap_append]
  exact List.append_nil _

theorem Decoder.sent_answered {F : Type} (d : Decoder F) {r : Receiver F} {l : List (QueueItem F)}
    (h : r.sent = d.process.sent ++ l) (c : Counted) :
    ({ d with process := r, counted := c } : Decoder F).sent = d.sent ++ l := by
  simp only [Decoder.sent, Decoder.processes, List.flatMap_append, List.flatMap_singleton, h, List.append_assoc]

/-- The counters since start, and those of the running process. -/
structure Decoder.Kept {F : Type} (d : Decoder F) : Prop where
  base : d.base.Sums d.ended
  counted : d.counted.Of d.process
  ended : ∀ r ∈ d.ended, r.Exact
  process : d.process.Exact

section
variable {F : Type} {d : Decoder F}

theorem sums_add {b c : Counted} {ended : List (Receiver F)} {r : Receiver F} (hb : b.Sums ended) (hc : c.Of r) :
    (b.add c).Sums (ended ++ [r]) where
  accepted := by
    rw [Counted.add, hb.accepted, hc.accepted, List.map_append, List.sum_append, List.map_singleton, List.sum_singleton]
  quarantined := by
    rw [Counted.add, hb.quarantined, hc.quarantined, List.map_append, List.sum_append, List.map_singleton,
      List.sum_singleton]
  reasons reason := by
    rw [Counted.add, Table.count_add, hb.reasons, hc.reasons, List.map_append, List.sum_append, List.map_singleton,
      List.sum_singleton]

theorem of_start : ({} : Counted).Of ({} : Receiver F) := ⟨rfl, rfl, fun _ => rfl⟩

theorem kept_start : ({} : Decoder F).Kept := ⟨⟨rfl, rfl, fun _ => rfl⟩, of_start, nofun, exact_start⟩

theorem Decoder.Kept.balanced (h : d.Kept) : d.Balanced where
  sums := sums_add h.base h.counted
  exact := List.forall_mem_append.mpr ⟨h.ended, List.forall_mem_singleton.mpr h.process⟩

theorem Decoder.Kept.answered (h : d.Kept) {r : Receiver F} {c : Counted} (hc : c.Of r) (hr : r.Exact) :
    ({ d with process := r, counted := c } : Decoder F).Kept := ⟨h.base, hc, h.ended, hr⟩

theorem Decoder.Kept.restart (h : d.Kept) : d.restart.Kept :=
  ⟨sums_add h.base h.counted, of_start, h.balanced.exact, exact_start⟩

end

namespace Setting
variable {F : Type} [PyFloat F] [PyPack F] [PyConvert F] (S : Setting F)

/-- What a receiver in the main process gives for a record; none, for one that crashes it. -/
def in_process (r : Receiver F) (payload : Bytes) : Option (Except Raised (Result F) × Receiver F) :=
  if is_raw payload then (S.answered r payload).map fun out => (.ok out.1, out.2) else some (local_result payload, r)

/-- The result that is due for a record: the receiver's, or a failure for one that crashes it. -/
def due (r : Receiver F) (payload : Bytes) : Except Raised (Result F) :=
  match S.in_process r payload with
  | some out => out.1
  | none => (S.unreadable payload "decoder-failed").map .event

/-- The receiver for the next record; after a crash a new one. -/
def next (r : Receiver F) (payload : Bytes) : Receiver F :=
  match S.in_process r payload with
  | some out => out.2
  | none => {}

def each (r : Receiver F) : List Bytes → List (Except Raised (Result F))
  | [] => []
  | payload :: payloads => S.due r payload :: each (S.next r payload) payloads

/-- A record that does not crash its process is not alone with one that dies. -/
def Alone (r : Receiver F) (payload : Bytes) (dies : Bool) : Prop :=
  is_raw payload = true → (S.in_process r payload).isSome = true → dies = false

def Spared (r : Receiver F) : List Bytes → (ℕ → Bool) → Prop
  | [], _ => True
  | payload :: payloads, dies => S.Alone r payload (dies 0) ∧ Spared (S.next r payload) payloads fun n => dies (n + 1)

/-- The item that a receiver hands on for a raw record. -/
def handed (r : Receiver F) (payload : Bytes) : List (QueueItem F) :=
  match S.in_process r payload with
  | some (.ok (.event item), _) => if is_raw payload then [item] else []
  | _ => []

def items (r : Receiver F) : List Bytes → List (QueueItem F)
  | [] => []
  | payload :: payloads => S.handed r payload ++ items (S.next r payload) payloads

theorem in_process_event (h : is_raw payload = false) (r : Receiver F) :
    S.in_process r payload = some (local_result payload, r) ∧ S.due r payload = local_result payload ∧
      S.next r payload = r ∧ S.handed r payload = [] := by
  have hin : S.in_process r payload = some (local_result payload, r) := if_neg (h ▸ Bool.false_ne_true)
  refine ⟨hin, ?_⟩
  rw [due, next, handed, hin, h]
  refine ⟨rfl, rfl, ?_⟩
  split <;> rfl

theorem in_process_none (h : is_raw payload = true) {r : Receiver F}
    (hr : S.answered r payload = none) : S.in_process r payload = none ∧
      S.due r payload = (S.unreadable payload "decoder-failed").map .event ∧ S.next r payload = {} ∧ S.handed r payload = [] := by
  have hin : S.in_process r payload = none := by rw [in_process, if_pos h, hr, Option.map_none]
  rw [due, next, handed, hin]
  exact ⟨rfl, rfl, rfl, rfl⟩

theorem in_process_some (h : is_raw payload = true) {result : Result F}
    (hr : S.answered r payload = some (result, r')) : S.in_process r payload = some (.ok result, r') ∧
      S.due r payload = .ok result ∧ S.next r payload = r' ∧ (r'.sent = r.sent ++ S.handed r payload) := by
  have hin : S.in_process r payload = some (.ok result, r') := by rw [in_process, if_pos h, hr, Option.map_some]
  refine ⟨hin, ?_⟩
  rw [due, next, handed, hin, h]
  refine ⟨rfl, rfl, ?_⟩
  unfold answered at hr
  split at hr
  · obtain ⟨rfl, rfl⟩ := Prod.mk.inj (Option.some.inj hr)
    exact (List.append_nil _).symm
  · obtain ⟨⟨item, r''⟩, hitem, hout⟩ := Option.map_eq_some_iff.mp hr
    obtain ⟨rfl, rfl⟩ := Prod.mk.inj hout
    exact received_sent hitem

omit [PyConvert F] in
theorem answered_exact {result : Result F}
    (h : S.answered r payload = some (result, r')) (hr : r.Exact) : r'.Exact := by
  unfold answered at h
  split at h
  · obtain ⟨-, rfl⟩ := Prod.mk.inj (Option.some.inj h)
    exact hr
  · obtain ⟨⟨item, r''⟩, hitem, hout⟩ := Option.map_eq_some_iff.mp h
    obtain ⟨-, rfl⟩ := Prod.mk.inj hout
    exact hr.received hitem

variable {results : List (Result F)}

omit [PyConvert F] in
/-- One record of a batch that is answered, and the others. -/
theorem answers_cons {p : Bytes}
    (h : S.answers r (p :: payloads) = some (results, r')) : ∃ result rest r₁, results = result :: rest ∧
      S.answered r p = some (result, r₁) ∧ S.answers r₁ payloads = some (rest, r') := by
  rw [answers] at h
  cases hanswer : S.answered r p with
  | none =>
    rw [hanswer] at h
    cases h
  | some out =>
    obtain ⟨result, r₁⟩ := out
    rw [hanswer] at h
    obtain ⟨⟨rest, _⟩, hrest, hout⟩ := Option.map_eq_some_iff.mp h
    obtain ⟨rfl, rfl⟩ := Prod.mk.inj hout
    exact ⟨result, rest, r₁, rfl, rfl, hrest⟩

omit [PyConvert F] in
theorem answers_exact
    (h : S.answers r payloads = some (results, r')) (hr : r.Exact) : r'.Exact := by
  induction payloads generalizing r results with
  | nil =>
    obtain ⟨-, rfl⟩ := Prod.mk.inj (Option.some.inj h)
    exact hr
  | cons p payloads ih =>
    obtain ⟨result, rest, r₁, -, hanswer, hrest⟩ := S.answers_cons h
    exact ih hrest (S.answered_exact hanswer hr)

theorem each_local (h : ∀ p ∈ payloads, is_raw p = false) (r : Receiver F) :
    S.each r payloads = payloads.map local_result ∧ S.items r payloads = [] := by
  induction payloads with
  | nil => exact ⟨rfl, rfl⟩
  | cons p payloads ih =>
    obtain ⟨hp, hrest⟩ := List.forall_mem_cons.mp h
    obtain ⟨-, hdue, hnext, hhanded⟩ := S.in_process_event hp r
    rw [each, items, hdue, hnext, hhanded, (ih hrest).1, (ih hrest).2]
    exact ⟨rfl, rfl⟩

/-- A batch that is answered at once is answered as each of its records where all of them are raw. -/
theorem each_answers
    (h : S.answers r payloads = some (results, r')) :
    (S.each r payloads = results.map .ok ↔ ∀ p ∈ payloads, is_raw p = true) ∧
      ((∀ p ∈ payloads, is_raw p = true) → r'.sent = r.sent ++ S.items r payloads) := by
  induction payloads generalizing r results with
  | nil =>
    obtain ⟨rfl, rfl⟩ := Prod.mk.inj (Option.some.inj h)
    exact ⟨iff_of_true rfl (List.forall_mem_nil _), fun _ => (List.append_nil _).symm⟩
  | cons p payloads ih =>
    obtain ⟨result, rest, r₁, rfl, hanswer, hrest⟩ := S.answers_cons h
    obtain ⟨heach, hsent⟩ := ih hrest
    rw [each, items]
    simp only [List.forall_mem_cons]
    cases hraw : is_raw p with
    | true =>
      obtain ⟨-, hdue, hnext, hhanded⟩ := S.in_process_some hraw hanswer
      rw [hdue, hnext, List.map_cons, List.cons.injEq, and_iff_right rfl, and_iff_right rfl]
      refine ⟨heach, fun hraws => ?_⟩
      rw [hsent hraws, hhanded, List.append_assoc]
    | false =>
      refine ⟨iff_of_false (fun he => ?_) fun h => Bool.noConfusion h.1, fun h => Bool.noConfusion h.1⟩
      have hlocal : local_result p = .ok result := (S.in_process_event hraw r).2.1 ▸ (List.cons.inj he).1
      have htext : S.unraw p = .error (.value "not a raw record") := by
        have hhead : p.head? ≠ some R := of_decide_eq_false hraw
        rw [unraw, Records.unraw, if_pos (.inl hhead)]
      rw [answered, htext] at hanswer
      obtain ⟨rfl, rfl⟩ := Prod.mk.inj (Option.some.inj hanswer)
      rcases local_result_cases (F := F) p with ⟨-, herror⟩ | ⟨-, result, hresult, hne⟩
      · cases herror.symm.trans hlocal
      · exact hne _ (Except.ok.inj (hresult.symm.trans hlocal))

omit [PyConvert F] in
/-- A record that crashes the process can be quarantined by its metadata, and what another gives is never that. -/
theorem unreadable_answered (r : Receiver F) (payload : Bytes) :
    (S.answered r payload = none → ∃ item, S.unreadable payload "decoder-failed" = .ok item) ∧
      ∀ result r', S.answered r payload = some (result, r') → ∀ item,
        S.unreadable payload "decoder-failed" = .ok item → result ≠ .event item := by
  unfold answered unreadable
  cases S.unraw payload with
  | error e => exact ⟨nofun, fun _ _ _ _ h => nomatch h⟩
  | ok d =>
    refine ⟨fun _ => ⟨_, rfl⟩, fun result r' hanswer item hitem he => ?_⟩
    obtain ⟨⟨sent, r''⟩, hsent, hout⟩ := Option.map_eq_some_iff.mp hanswer
    obtain ⟨rfl, rfl⟩ := Prod.mk.inj hout
    obtain rfl := Result.event.inj he
    have hpacket := Except.ok.inj hitem
    rcases received_cases hsent with ⟨e, usm, rfl, -⟩ | ⟨q, usm, hq, rfl, -⟩
    · cases hpacket
    · exact hq.ne (lit_injective (congrArg QuarantinedPacket.reason (QueueItem.packet.inj hpacket)).symm)

theorem roundtrip_long (d : Decoder F) (h : ¬ ∀ p ∈ payloads, p.length < 2 ^ 32)
    (dies : Bool) : S.roundtrip d payloads dies = (d, .error .struct_error) := by
  have hframes : frames payloads = none := by
    rw [frames, Option.map_eq_none_iff]
    exact Option.not_isSome_iff_eq_none.mp (mt (framed_isSome payloads).mp h)
  rw [roundtrip, hframes]

/-- The exchange of one record: it fails and the record is held back, or it is answered. -/
theorem decode_one_cases (d : Decoder F) (hraw : is_raw payload = true)
    (hlength : payload.length < 2 ^ 32) (dies : Bool) :
    (dies = true ∨ S.answered d.process payload = none) ∧ S.decode_one d payload dies = S.hold d payload ∨
      dies = false ∧ ∃ result r c, S.answered d.process payload = some (result, r) ∧ c.Of r ∧
        S.decode_one d payload dies = ({ d with process := r, counted := c }, .ok [result]) := by
  unfold decode_one
  rw [if_pos hraw]
  have hone : S.answers d.process [payload] = (S.answered d.process payload).map fun out => ([out.1], out.2) := by
    rw [answers]
    cases S.answered d.process payload <;> rfl
  rcases S.roundtrip_cases d (List.forall_mem_singleton.mpr hlength) dies with ⟨hfails, hround⟩ |
    ⟨hdies, results, r, c, hanswers, hc, hround⟩
  · refine .inl ⟨hfails.imp_right fun hnone => ?_, by rw [hround]⟩
    exact Option.map_eq_none_iff.mp (hone.symm.trans hnone)
  · obtain ⟨⟨result, r'⟩, hanswer, hout⟩ := Option.map_eq_some_iff.mp (hone.symm.trans hanswers)
    obtain ⟨rfl, rfl⟩ := Prod.mk.inj hout
    exact .inr ⟨hdies, result, r', c, hanswer, hc, by rw [hround]⟩

/-- A record is served as it is due unless it overflows, or is alone with a process that dies. -/
theorem decode_one_served (d : Decoder F) (hlength : payload.length < 2 ^ 32) (dies : Bool)
    (hover : ¬ Overflows F payload) (halone : S.Alone d.process payload dies) :
    ∃ result d', S.decode_one d payload dies = (d', .ok [result]) ∧ S.due d.process payload = .ok result ∧
      d'.process = S.next d.process payload ∧ d'.sent = d.sent ++ S.handed d.process payload := by
  cases hraw : is_raw payload with
  | false =>
    have hone : S.decode_one d payload dies = (d, (local_results [payload]).mapError .raised) :=
      if_neg (hraw ▸ Bool.false_ne_true)
    obtain ⟨-, hdue, hnext, hhanded⟩ := S.in_process_event hraw d.process
    rcases local_result_cases (F := F) payload with ⟨hload, -⟩ | ⟨-, result, hlocal, -⟩
    · exact absurd ⟨hraw, hload⟩ hover
    · refine ⟨result, d, by rw [hone, local_results, hlocal]; rfl, hdue.trans hlocal, hnext.symm, ?_⟩
      rw [hhanded, List.append_nil]
  | true =>
    rcases S.decode_one_cases d hraw hlength dies with ⟨hfails, hone⟩ | ⟨-, result, r, c, hanswer, -, hone⟩
    · cases hanswer : S.answered d.process payload with
      | none =>
        obtain ⟨item, hitem⟩ := (S.unreadable_answered d.process payload).1 hanswer
        obtain ⟨-, hdue, hnext, hhanded⟩ := S.in_process_none hraw hanswer
        refine ⟨.event item, _, by rw [hone, hold, hitem]; rfl, by rw [hdue, hitem]; rfl, hnext.symm, ?_⟩
        rw [hhanded, List.append_nil]
        exact d.sent_restart
      | some out =>
        have hsome : (S.in_process d.process payload).isSome = true := by
          rw [(S.in_process_some hraw (hanswer : _ = some (out.1, out.2))).1]
          rfl
        have hdead := hfails.resolve_right (hanswer ▸ nofun)
        exact Bool.noConfusion (hdead.symm.trans (halone hraw hsome))
    · obtain ⟨-, hdue, hnext, hsent⟩ := S.in_process_some hraw hanswer
      exact ⟨result, _, hone, hdue, hnext.symm, d.sent_answered hsent c⟩

/-- Elsewhere it is not. -/
theorem decode_one_wronged (d : Decoder F) (hlength : payload.length < 2 ^ 32) (dies : Bool)
    (h : ¬ (¬ Overflows F payload ∧ S.Alone d.process payload dies)) :
    (∃ d' e, S.decode_one d payload dies = (d', .error e)) ∨
      ∃ d' result, S.decode_one d payload dies = (d', .ok [result]) ∧ S.due d.process payload ≠ .ok result := by
  cases hraw : is_raw payload with
  | false =>
    have hone : S.decode_one d payload dies = (d, (local_results [payload]).mapError .raised) :=
      if_neg (hraw ▸ Bool.false_ne_true)
    rcases local_result_cases (F := F) payload with ⟨-, hlocal⟩ | ⟨hload, -⟩
    · exact .inl ⟨d, .raised .overflow, by rw [hone, local_results, hlocal]; rfl⟩
    · exact absurd ⟨fun ho => hload ho.2, fun hr => Bool.noConfusion (hraw.symm.trans hr)⟩ h
  | true =>
    have halone : ¬ S.Alone d.process payload dies := fun ha =>
      h ⟨fun ho => Bool.noConfusion (hraw.symm.trans ho.1), ha⟩
    rcases S.decode_one_cases d hraw hlength dies with ⟨-, hone⟩ | ⟨hdies, -⟩
    · cases hanswer : S.answered d.process payload with
      | none =>
        refine absurd (fun _ hs => ?_) halone
        rw [(S.in_process_none hraw hanswer).1] at hs
        exact Bool.noConfusion hs
      | some out =>
        have hdue := (S.in_process_some hraw (hanswer : _ = some (out.1, out.2))).2.1
        rw [hone, hold, hdue]
        cases hitem : S.unreadable payload "decoder-failed" with
        | error e => exact .inl ⟨_, _, rfl⟩
        | ok item =>
          have hne := (S.unreadable_answered d.process payload).2 out.1 out.2 hanswer item hitem
          exact .inr ⟨_, _, rfl, fun he => hne (Except.ok.inj he)⟩
    · exact absurd (fun _ _ => hdies) halone

theorem singly_replies (hlength : ∀ p ∈ payloads, p.length < 2 ^ 32) (d : Decoder F)
    (dies : ℕ → Bool) :
    (Replies (S.singly d payloads dies).2 (S.each d.process payloads) ↔
      (∀ p ∈ payloads, ¬ Overflows F p) ∧ S.Spared d.process payloads dies) ∧
    ((∀ p ∈ payloads, ¬ Overflows F p) ∧ S.Spared d.process payloads dies →
      (S.singly d payloads dies).1.sent = d.sent ++ S.items d.process payloads) := by
  induction payloads generalizing d dies with
  | nil => exact ⟨iff_of_true ⟨[], rfl, rfl⟩ ⟨nofun, trivial⟩, fun _ => (List.append_nil _).symm⟩
  | cons p payloads ih =>
    obtain ⟨hp, hrest⟩ := List.forall_mem_cons.mp hlength
    rw [singly, each, items, Spared, List.forall_mem_cons, and_and_and_comm]
    by_cases h : ¬ Overflows F p ∧ S.Alone d.process p (dies 0)
    · obtain ⟨result, d', hone, hdue, hnext, hsent⟩ := S.decode_one_served d hp (dies 0) h.1 h.2
      obtain ⟨hreplies, hitems⟩ := ih hrest d' fun n => dies (n + 1)
      rw [hone, hdue, ← hnext, and_iff_right h]
      refine ⟨replies_cons.trans ((and_iff_right rfl).trans hreplies), fun hc => ?_⟩
      exact (hitems hc).trans (by rw [hsent, List.append_assoc])
    · refine ⟨iff_of_false (fun hr => ?_) fun hc => h hc.1, fun hc => absurd hc.1 h⟩
      rcases S.decode_one_wronged d hp (dies 0) h with ⟨d', e, hone⟩ | ⟨d', result, hone, hdue⟩
      · rw [hone] at hr
        exact not_replies_error hr
      · rw [hone] at hr
        exact hdue (replies_cons.mp hr).1

/-- The process answers the whole batch. -/
def Through (d : Decoder F) (payloads : List Bytes) (dies : ℕ → Bool) : Prop :=
  dies 0 = false ∧ (S.answers d.process payloads).isSome = true

instance (d : Decoder F) (payloads : List Bytes) (dies : ℕ → Bool) : Decidable (S.Through d payloads dies) :=
  inferInstanceAs (Decidable (_ ∧ _))

/-- The receiver that a reply is compared with: of the running process, or of the one that is started once a batch has
failed. -/
def start (d : Decoder F) (payloads : List Bytes) (dies : ℕ → Bool) : Receiver F :=
  if payloads.length = 1 ∨ S.Through d payloads dies then d.process else {}

/-- One result for each record, in order, as the receiver gives it; a failure for those that crash it. -/
def Right (d : Decoder F) (payloads : List Bytes) (dies : ℕ → Bool) : Prop :=
  Replies (S.decode d payloads dies).2 (S.each (S.start d payloads dies) payloads)

/-- Every length fits its frame, no event overflows, a batch that is answered at once is of raw records, and no record
that does not crash it is alone with a process that dies. -/
def Clear (d : Decoder F) (payloads : List Bytes) (dies : ℕ → Bool) : Prop :=
  if payloads.any is_raw then
    (∀ p ∈ payloads, p.length < 2 ^ 32) ∧
      if payloads.length = 1 then S.Spared d.process payloads dies
      else if S.Through d payloads dies then ∀ p ∈ payloads, is_raw p = true
      else (∀ p ∈ payloads, ¬ Overflows F p) ∧ S.Spared {} payloads fun n => dies (n + 1)
  else ∀ p ∈ payloads, ¬ Overflows F p

/-- What the processes hand on while they reply is what the receiver does. -/
def Accounted (d : Decoder F) (payloads : List Bytes) (dies : ℕ → Bool) : Prop :=
  (S.decode d payloads dies).1.sent = d.sent ++ S.items (S.start d payloads dies) payloads

theorem decode_local (d : Decoder F) (hraw : payloads.any is_raw = false) (dies : ℕ → Bool) :
    (S.Right d payloads dies ↔ S.Clear d payloads dies) ∧ S.Accounted d payloads dies := by
  have hevents : ∀ p ∈ payloads, is_raw p = false := by simpa using hraw
  have hdecode : S.decode d payloads dies = (d, (local_results payloads).mapError .raised) :=
    if_neg (hraw ▸ Bool.false_ne_true)
  obtain ⟨heach, hitems⟩ := S.each_local hevents (S.start d payloads dies)
  rw [Right, Clear, Accounted, hdecode, hraw, heach, hitems, replies_local]
  refine ⟨forall₂_congr fun p hp => ?_, (List.append_nil _).symm⟩
  exact ⟨fun h ho => h ho.2, fun h ho => h ⟨hevents p hp, ho⟩⟩

/-- A request of one raw record. -/
theorem decode_alone (d : Decoder F) (hraw : is_raw payload = true) (dies : ℕ → Bool) :
    (S.Right d [payload] dies ↔ S.Clear d [payload] dies) ∧
      (S.Clear d [payload] dies → S.Accounted d [payload] dies) := by
  have hany : [payload].any is_raw = true := by simpa using hraw
  have hdecode : S.decode d [payload] dies = S.singly d [payload] dies := by
    unfold decode
    rw [if_pos hany, singly]
    dsimp only
    generalize S.decode_one d payload (dies 0) = out
    obtain ⟨d', e | results⟩ := out
    · rfl
    · exact congrArg (fun results => (d', Except.ok results)) (List.append_nil results).symm
  have hstart : S.start d [payload] dies = d.process := if_pos (.inl rfl)
  rw [Right, Clear, Accounted, hdecode, hstart, if_pos hany, if_pos (show [payload].length = 1 from rfl)]
  by_cases hlength : ∀ p ∈ [payload], p.length < 2 ^ 32
  · have hover : ∀ p ∈ [payload], ¬ Overflows F p := fun p hp ho =>
      Bool.noConfusion (hraw.symm.trans (List.mem_singleton.mp hp ▸ ho.1))
    have h := S.singly_replies hlength d dies
    rw [and_iff_right hover] at h
    rwa [and_iff_right hlength]
  · rw [singly, decode_one, if_pos hraw, S.roundtrip_long d hlength]
    exact ⟨iff_of_false not_replies_error fun h => hlength h.1, fun h => absurd h.1 hlength⟩

/-- A batch whose exchange fails is decoded again, one record at a time, by a new process. -/
theorem decode_failed {d d' : Decoder F} {dies : ℕ → Bool} (hraw : payloads.any is_raw = true)
    (hone : payloads.length ≠ 1) (h : S.roundtrip d payloads (dies 0) = (d', .error .decoder_error)) :
    S.decode d payloads dies = S.singly d'.restart payloads fun n => dies (n + 1) := by
  unfold decode
  rw [if_pos hraw]
  split
  · exact absurd rfl hone
  · rw [h]

theorem decode_through {d d' : Decoder F} {dies : ℕ → Bool}
    {reply : Except Fault (List (Result F))} (hraw : payloads.any is_raw = true) (hone : payloads.length ≠ 1)
    (h : S.roundtrip d payloads (dies 0) = (d', reply)) (hreply : reply ≠ .error .decoder_error) :
    S.decode d payloads dies = (d', reply) := by
  unfold decode
  rw [if_pos hraw]
  split
  · exact absurd rfl hone
  · rw [h]
    split
    · next hout => exact absurd (Prod.mk.inj hout).2 hreply
    · rfl

/-- A batch, one of them raw. -/
theorem decode_many (d : Decoder F) (hraw : payloads.any is_raw = true)
    (hone : payloads.length ≠ 1) (dies : ℕ → Bool) : (S.Right d payloads dies ↔ S.Clear d payloads dies) ∧
      (S.Clear d payloads dies → S.Accounted d payloads dies) := by
  rw [Right, Clear, Accounted, if_pos hraw, if_neg hone, start]
  by_cases hlength : ∀ p ∈ payloads, p.length < 2 ^ 32
  · rw [and_iff_right hlength]
    rcases S.roundtrip_cases d hlength (dies 0) with ⟨hfails, hround⟩ | ⟨hdies, results, r, c, hanswers, -, hround⟩
    · have hthrough : ¬ S.Through d payloads dies := by
        rintro ⟨hlives, hsome⟩
        rcases hfails with hdies | hnone
        · exact Bool.noConfusion (hdies.symm.trans hlives)
        · rw [hnone] at hsome
          exact Bool.noConfusion hsome
      rw [S.decode_failed hraw hone hround, if_neg (not_or.mpr ⟨hone, hthrough⟩), if_neg hthrough, ← d.sent_restart]
      exact S.singly_replies hlength d.restart _
    · have hthrough : S.Through d payloads dies := ⟨hdies, by rw [hanswers]; rfl⟩
      obtain ⟨heach, hsent⟩ := S.each_answers hanswers
      rw [S.decode_through hraw hone hround (by simp), if_pos (.inr hthrough), if_pos hthrough, ← heach]
      refine ⟨⟨?_, fun hx => ⟨_, rfl, hx⟩⟩, fun h => d.sent_answered (hsent (heach.mp h)) c⟩
      rintro ⟨_, he, hx⟩
      obtain rfl := Except.ok.inj he
      exact hx
  · rw [S.decode_through hraw hone (S.roundtrip_long d hlength _) (by simp)]
    exact ⟨iff_of_false not_replies_error fun h => hlength h.1, fun h => absurd h.1 hlength⟩

/-- A reply is right where the pattern of crashes is clear, and then counts for what is in it. -/
theorem right_iff_clear (d : Decoder F) (payloads : List Bytes) (dies : ℕ → Bool) :
    (S.Right d payloads dies ↔ S.Clear d payloads dies) ∧ (S.Clear d payloads dies → S.Accounted d payloads dies) := by
  by_cases hraw : payloads.any is_raw = true
  · by_cases hone : payloads.length = 1
    · obtain ⟨p, rfl⟩ := List.length_eq_one_iff.mp hone
      exact S.decode_alone d (by simpa using hraw) dies
    · exact S.decode_many d hraw hone dies
  · have h := S.decode_local d (Bool.not_eq_true _ ▸ hraw) dies
    exact ⟨h.1, fun _ => h.2⟩

theorem kept_roundtrip {d : Decoder F} (h : d.Kept) (payloads : List Bytes) (dies : Bool) :
    (S.roundtrip d payloads dies).1.Kept := by
  by_cases hlength : ∀ p ∈ payloads, p.length < 2 ^ 32
  · rcases S.roundtrip_cases d hlength dies with ⟨-, hround⟩ | ⟨-, results, r, c, hanswers, hc, hround⟩
    · rw [hround]
      exact h
    · rw [hround]
      exact h.answered hc (S.answers_exact hanswers h.process)
  · rw [S.roundtrip_long d hlength]
    exact h

theorem kept_decode_one {d : Decoder F} (h : d.Kept) (payload : Bytes) (dies : Bool) :
    (S.decode_one d payload dies).1.Kept := by
  have hround := S.kept_roundtrip h [payload] dies
  unfold decode_one
  split
  · split
    · rename_i hout
      rw [hout] at hround
      exact ⟨hround.restart.base, hround.restart.counted, hround.restart.ended, hround.restart.process⟩
    · exact hround
  · exact h

theorem kept_singly {d : Decoder F} (h : d.Kept) (payloads : List Bytes) (dies : ℕ → Bool) :
    (S.singly d payloads dies).1.Kept := by
  induction payloads generalizing d dies with
  | nil => exact h
  | cons p payloads ih =>
    have hone := S.kept_decode_one h p (dies 0)
    rw [singly]
    generalize S.decode_one d p (dies 0) = out at hone ⊢
    obtain ⟨d', e | results⟩ := out
    · exact hone
    · exact ih hone _

theorem kept_decode {d : Decoder F} (h : d.Kept) (payloads : List Bytes) (dies : ℕ → Bool) :
    (S.decode d payloads dies).1.Kept := by
  have hround := S.kept_roundtrip h payloads (dies 0)
  unfold decode
  split
  · split
    · exact S.kept_decode_one h _ _
    · split
      · rename_i hout
        rw [hout] at hround
        exact S.kept_singly hround.restart _ _
      · exact hround
  · exact h

/-- A call of `decode`, with when its processes die. -/
structure Call where
  payloads : List Bytes
  dies : ℕ → Bool

def step (d : Decoder F) (call : Call) : Decoder F := (S.decode d call.payloads call.dies).1

/-- After any calls the counters balance, and every reply is right, and accounted for, just where it is clear; frames
are read back where their lengths fit. -/
theorem pool_replies (calls : List Call) : (run S.step {} calls).Balanced ∧
    (∀ payloads dies, S.Clear (run S.step {} calls) payloads dies ↔
      S.Right (run S.step {} calls) payloads dies ∧ S.Accounted (run S.step {} calls) payloads dies) ∧
    ∀ payloads, (frames payloads).bind unframe = some payloads ↔ ∀ p ∈ payloads, p.length < 2 ^ 32 := by
  refine ⟨?_, fun payloads dies => ?_, unframe_frames⟩
  · have hkept : (run S.step {} calls).Kept :=
      run_always (I := Decoder.Kept) (fun d call h => S.kept_decode h call.payloads call.dies) _ calls kept_start
    exact hkept.balanced
  · obtain ⟨hright, haccounted⟩ := S.right_iff_clear (run S.step {} calls) payloads dies
    exact ⟨fun h => ⟨hright.mpr h, haccounted h⟩, fun h => hright.mp h.1⟩

end Setting

/-- A process that nothing crashes. -/
def sturdy : Setting Stamp where
  platform := Snmp.publicPlatform
  community_key := none
  policy := {}
  inet_ntop _ _ := "10.0.0.9"
  seconds _ := 0
  stops _ _ := false

/-- A datagram of one byte from 10.0.0.9. -/
def oneByte : Bytes := 0x52 :: List.replicate 8 0 ++ [4, 162, 0, 10, 0, 0, 9, 0x30]

/-- An event. -/
def eventRecord : Bytes := encodeStr (lit "[\"t\",\"10.0.0.9\",\"1.3\",\"\",1,\"\",[]]")

/-- A record that crashes nothing fails where its process was dead, and an event in a batch with it is no record. -/
theorem pool_misreplies : ¬ sturdy.Right {} [oneByte] (fun _ => true) ∧
    ¬ sturdy.Right {} [oneByte, eventRecord] (fun _ => false) := by
  have hraw : is_raw oneByte = true := by decide
  refine ⟨fun h => ?_, fun h => ?_⟩
  · have hclear := (sturdy.right_iff_clear _ _ _).1.mp h
    rw [Setting.Clear, if_pos (by decide), if_pos (show [oneByte].length = 1 from rfl)] at hclear
    exact Bool.noConfusion (hclear.2.1 hraw (by decide +kernel))
  · have hclear := (sturdy.right_iff_clear _ _ _).1.mp h
    rw [Setting.Clear, if_pos (by decide), if_neg (by decide), if_pos ⟨rfl, by decide +kernel⟩] at hclear
    exact absurd (hclear.2 eventRecord (by decide)) (by decide)

end NetCoreNoc.Ingest.Decoding

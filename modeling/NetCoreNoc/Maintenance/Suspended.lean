import Mathlib
import NetCoreNoc.Runs
import NetCoreNoc.Maintenance.Surfacing

/-! The life of a window while requests about it are under way. A route reads the window before its transaction
and writes in it what it has decided; between the two it is suspended (`api/routes/maintenance.py`,
`api/routes/maintenance_ops.py`). -/
namespace NetCoreNoc.Maintenance

/-- Who makes a request, and the elements that it can be about: every one, or those of a scope. -/
structure Caller where
  is_token : Bool := false
  mw_confirm : Bool := true
  ne_ids : Option (List Nat) := none

namespace Caller
variable (caller : Caller)

def in_scope (targets : List Nat) : Bool :=
  caller.ne_ids.all fun ne_ids => targets.isEmpty || targets.any (· ∈ ne_ids)

/-- The elements of a body that are known and that the caller may see. -/
def permitted_targets (known targets : List Nat) : List Nat :=
  targets.dedup.filter fun ne => ne ∈ known && caller.ne_ids.all (ne ∈ ·)

def narrow (known : List Nat) (body : WindowBody) : WindowBody :=
  let targets := caller.permitted_targets known body.targets
  { body with targets := targets, rules := body.rules.filter (·.1 ∈ targets) }

/-- Targets and rules on elements that the caller does not see stay. -/
def keep_unseen (window : WindowRow) (body : WindowBody) : WindowBody := match caller.ne_ids with
  | none => body
  | some ne_ids => { body with
      targets := (body.targets ++ window.targets.filter (· ∉ ne_ids)).dedup
      rules := body.rules ++ window.rules.filter (·.1 ∉ ne_ids) }

end Caller

/-- What an edit writes besides the schedule. -/
structure Content where
  ledger_enabled : Bool
  targets : List Nat
  rules : List (Nat × Rule)
  deriving DecidableEq

/-- The columns that an edit or an extension writes. -/
structure Columns where
  starts_at : ℚ
  ends_at : ℚ
  tz : String
  patch_s : ℚ
  status : Status
  content : Option Content
  deriving DecidableEq

/-- A request to move a window. -/
inductive Change where
  | update (caller : Caller) (known : List Nat) (tz : String) (body : WindowBody)
  | extend (ends_at : ℚ)

/-- `update_window` up to its transaction, of the window that it has read. -/
def update_columns (caller : Caller) (known : List Nat) (tz : String) (body : WindowBody) (now : ℚ)
    (window : WindowRow) (window_tz : String) : Option Columns :=
  let kept := caller.keep_unseen window (caller.narrow known body)
  let frozen : Bool := window.status = .active && (window_tz != tz || frozen_while_active window kept)
  let past : Bool := window.status = .active && body.ends_at ≤ now && 1 / 2 < |body.ends_at - window.ends_at|
  if window.status.live && body.valid && !frozen && !past then some {
    starts_at := body.starts_at
    ends_at := body.ends_at
    tz := tz
    patch_s := body.patch_s
    status := restatus window (needs_confirmation body.starts_at body.ends_at) body.starts_at now body.ends_at
    content := some ⟨body.ledger_enabled, kept.targets.dedup, kept.rules⟩ }
  else none

/-- `extend_window` up to its transaction. -/
def extend_columns (ends_at now : ℚ) (window : WindowRow) (window_tz : String) : Option Columns :=
  if window.status.live && window.ends_at < ends_at then some {
    starts_at := window.starts_at
    ends_at := ends_at
    tz := window_tz
    patch_s := window.patch_s
    status := restatus window (needs_confirmation window.starts_at ends_at) window.starts_at now ends_at
    content := none }
  else none

/-- What a request decides on the window that it has read; none where it is refused. -/
def Change.columns (change : Change) (now : ℚ) (window : WindowRow) (window_tz : String) : Option Columns :=
  match change with
  | .update caller known tz body => update_columns caller known tz body now window window_tz
  | .extend ends_at => extend_columns ends_at now window window_tz

/-- Where a route is suspended. -/
inductive Suspended where
  /-- an edit that has read the window, and its targets and rules not yet -/
  | editing (wid : Nat) (change : Change) (window : WindowRow) (window_tz : String)
  /-- an edit or an extension before its transaction -/
  | changing (wid : Nat) (change : Change) (now : ℚ) (columns : Columns)
  /-- a confirmation before its transaction, of a window that was read with this span -/
  | confirming (wid : Nat) (span : ℚ)

/-- The station, the zone of each window, the span that a person has last agreed to, and the routes under way. -/
structure Routes where
  station : Station := {}
  tz : Nat → String := fun _ => ""
  agreed : Nat → Option ℚ := fun _ => none
  suspended : Nat → Option Suspended := fun _ => none

/-- What a route writes of one window is one step; what it reads of it is one step for each read. Cancel and End now
decide on nothing that they have read. -/
inductive RouteOp where
  | signal (sig : Signal)
  | create (now : ℚ) (caller : Caller) (known : List Nat) (confirm : Bool) (tz : String) (body : WindowBody)
  | update (req : Nat) (caller : Caller) (known : List Nat) (wid : Nat) (tz : String) (body : WindowBody)
  /-- the edit has read the targets and the rules -/
  | decide (req : Nat) (now : ℚ)
  | extend (req : Nat) (now : ℚ) (caller : Caller) (wid : Nat) (ends_at : ℚ)
  | confirm (req : Nat) (caller : Caller) (wid : Nat)
  /-- the transaction of an edit, an extension or a confirmation -/
  | commit (req : Nat)
  | cancel (wid : Nat)
  | end_now (now : ℚ) (wid : Nat)
  | sweep (now : ℚ)
  | sweep_fails (now : ℚ) (failure : SweepFailure)
  | restart

namespace Routes
variable (d : Routes)

def row (wid : Nat) : Option WindowRow := d.station.table.find? (·.id = wid)

/-- `visible_or_404` -/
def visible (caller : Caller) (wid : Nat) : Option WindowRow := (d.row wid).filter (caller.in_scope ·.targets)

def with_table (table : WindowTable) : Routes := { d with station := { d.station with table := table } }

def suspend (req : Nat) (route : Option Suspended) : Routes :=
  { d with suspended := Function.update d.suspended req route }

/-- Only a person who may confirm a long window creates it confirmed. -/
def create_window (now : ℚ) (caller : Caller) (known : List Nat) (confirm : Bool) (tz : String)
    (body : WindowBody) : Routes :=
  let confirm_now := needs_confirmation body.starts_at body.ends_at && confirm
  let wid := d.station.table.length + 1
  if body.valid && !(confirm_now && (caller.is_token || !caller.mw_confirm)) then { d with
    station := { d.station with table := d.station.table.create now confirm (caller.narrow known body) }
    tz := Function.update d.tz wid tz
    agreed := Function.update d.agreed wid (if confirm_now then some (body.ends_at - body.starts_at) else none) }
  else d

def update_window (req : Nat) (caller : Caller) (known : List Nat) (wid : Nat) (tz : String)
    (body : WindowBody) : Routes :=
  match d.visible caller wid with
  | some window =>
    if window.status.live then d.suspend req (some (.editing wid (.update caller known tz body) window (d.tz wid)))
    else d
  | none => d

def decide_update (req : Nat) (now : ℚ) : Routes := match d.suspended req with
  | some (.editing wid change window window_tz) =>
    let current_targets := ((d.row wid).map (·.targets)).getD []
    let current_rules := ((d.row wid).map (·.rules)).getD []
    let seen := { window with targets := current_targets, rules := current_rules }
    d.suspend req ((change.columns now seen window_tz).map (.changing wid change now))
  | _ => d

def extend_window (req : Nat) (now : ℚ) (caller : Caller) (wid : Nat) (ends_at : ℚ) : Routes :=
  match d.visible caller wid with
  | some window =>
    d.suspend req (((Change.extend ends_at).columns now window (d.tz wid)).map (.changing wid (.extend ends_at) now))
  | none => d

/-- A service token may not agree. -/
def confirm_window (req : Nat) (caller : Caller) (wid : Nat) : Routes :=
  match d.visible caller wid with
  | some window =>
    if caller.is_token then d else d.suspend req (some (.confirming wid (window.ends_at - window.starts_at)))
  | none => d

/-- `update_window_fields`, `update_window_schedule`, `set_window_targets` and `set_window_rules`: whatever has
become of the window. -/
def write (wid : Nat) (columns : Columns) : Routes :=
  let moved := d.station.table.update_window_schedule wid columns.starts_at columns.ends_at columns.patch_s
    columns.status
  let table := moved.set wid fun r => match columns.content with
    | some content => { r with
        ledger_enabled := content.ledger_enabled
        targets := content.targets
        rules := content.rules }
    | none => r
  { d.with_table table with tz := Function.update d.tz wid columns.tz }

/-- The guard of the statement is all that it asks of the window. -/
def write_confirmation (wid : Nat) (span : ℚ) : Routes :=
  let waits := (d.row wid).any (·.status = .pending_confirmation)
  { d.with_table (d.station.table.confirm_window wid) with
    agreed := if waits then Function.update d.agreed wid (some span) else d.agreed }

def commit (req : Nat) : Routes := match d.suspended req with
  | some (.changing wid _ _ columns) => (d.write wid columns).suspend req none
  | some (.confirming wid span) => (d.write_confirmation wid span).suspend req none
  | _ => d

def step : Routes → RouteOp → Routes
  | d, .signal sig => { d with station := d.station.process sig }
  | d, .create now caller known confirm tz body => d.create_window now caller known confirm tz body
  | d, .update req caller known wid tz body => d.update_window req caller known wid tz body
  | d, .decide req now => d.decide_update req now
  | d, .extend req now caller wid ends_at => d.extend_window req now caller wid ends_at
  | d, .confirm req caller wid => d.confirm_window req caller wid
  | d, .commit req => d.commit req
  | d, .cancel wid => d.with_table (d.station.table.cancel_window wid)
  | d, .end_now now wid => { d with station := d.station.end_now now wid }
  | d, .sweep now => { d with station := d.station.sweep now }
  | d, .sweep_fails now failure => { d with station := d.station.sweep_fails now failure }
  | d, .restart => { d with
      station := { d.station with ledger := {}, index := EMPTY }
      suspended := fun _ => none }

end Routes

namespace WindowTable
variable {table : WindowTable} {wid : Nat} {now : ℚ}

theorem find_map {f : WindowRow → WindowRow} (hid : ∀ r, (f r).id = r.id) (wid : Nat) :
    (table.map f).find? (·.id = wid) = (table.find? (·.id = wid)).map f := by
  rw [List.find?_map]
  refine congrArg (fun p => (table.find? p).map f) (funext fun r => ?_)
  simp only [Function.comp_apply, hid]

theorem find_set {f : WindowRow → WindowRow} (hid : ∀ r, (f r).id = r.id) (wid wid' : Nat) :
    (table.set wid f).find? (·.id = wid') =
      (table.find? (·.id = wid')).map fun r => if wid' = wid then f r else r := by
  unfold set
  rw [find_map fun r => by split <;> [exact hid r; rfl]]
  cases h : table.find? (·.id = wid') with
  | none => rfl
  | some r =>
    obtain rfl : r.id = wid' := by simpa using List.find?_some h
    rfl

theorem ids_map {f : WindowRow → WindowRow} (hid : ∀ r, (f r).id = r.id) :
    (table.map f).map (·.id) = table.map (·.id) :=
  List.map_map.trans (List.map_congr_left fun r _ => hid r)

theorem ids_set {f : WindowRow → WindowRow} (hid : ∀ r, (f r).id = r.id) (wid : Nat) :
    (table.set wid f).map (·.id) = table.map (·.id) :=
  ids_map fun r => by split <;> [exact hid r; rfl]

theorem Numbered.of_ids (h : table.Numbered) {table' : WindowTable} (hids : table'.map (·.id) = table.map (·.id)) :
    table'.Numbered := by
  have hlength : table'.length = table.length := by simpa using congrArg List.length hids
  unfold Numbered
  rw [hids, hlength]
  exact h

theorem find_schedule (starts_at ends_at patch_s : ℚ) (status : Status) (wid wid' : Nat) :
    (table.update_window_schedule wid starts_at ends_at patch_s status).find? (·.id = wid') =
      (table.find? (·.id = wid')).map fun r => if wid' = wid then { r with
        starts_at := starts_at
        ends_at := ends_at
        patch_s := patch_s
        status := status
        confirmed := r.confirmed && status ≠ .pending_confirmation } else r :=
  find_set (by intro r; rfl) wid wid'

/-- The row of a new window. -/
def created (wid : Nat) (now : ℚ) (confirm : Bool) (body : WindowBody) : WindowRow :=
  let needs := needs_confirmation body.starts_at body.ends_at
  { id := wid
    status := if needs && !confirm then .pending_confirmation else initial_status body.starts_at now
    starts_at := body.starts_at
    ends_at := body.ends_at
    patch_s := body.patch_s
    ledger_enabled := body.ledger_enabled
    confirmed := needs && confirm
    targets := body.targets.dedup
    rules := body.rules }

theorem create_created {confirm : Bool} {body : WindowBody} (hvalid : body.valid) :
    table.create now confirm body = table ++ [created (table.length + 1) now confirm body] := if_pos hvalid

/-- The next number is free. -/
theorem Numbered.free (h : table.Numbered) : table.find? (·.id = table.length + 1) = none := by
  refine List.find?_eq_none.mpr fun r hr => ?_
  have hmem : r.id ∈ List.range' 1 table.length := h ▸ List.mem_map_of_mem hr
  have hle := (List.mem_range'_1.mp hmem).2
  simp only [decide_eq_true_eq]
  omega

end WindowTable

/-- What the clock can make of the status of a window. -/
structure WindowRow.Ticks (r : WindowRow) (now : ℚ) (status : Status) : Prop where
  finished : r.status.live = false → status = r.status
  in_force : status.in_force → r.status.in_force
  active : r.status = .active → status = .active ∨ r.effective_ends_at ≤ now

namespace WindowTable

theorem advance_ticks (table : WindowTable) (now : ℚ) : ∃ f : WindowRow → Status,
    table.advance_statuses now = table.map (fun r => { r with status := f r }) ∧
    ∀ r : WindowRow, r.Ticks now (f r) := by
  refine ⟨fun r => if r.status = .pending_confirmation && r.effective_starts_at ≤ now then .expired
    else if r.status.in_force && r.effective_ends_at ≤ now then .ended
    else if r.status = .scheduled && r.effective_starts_at ≤ now then .active else r.status, ?_, fun r => ?_⟩
  · unfold advance_statuses
    rw [List.map_map, List.map_map]
    refine List.map_congr_left fun r _ => ?_
    obtain ⟨id, status, starts_at, ends_at, patch_s, ledger_enabled, confirmed, targets, rules⟩ := r
    simp only [Function.comp_apply, WindowRow.effective_starts_at, WindowRow.effective_ends_at, ← not_le]
    by_cases hbegun : starts_at - patch_s ≤ now <;> by_cases hover : ends_at + patch_s ≤ now <;>
      cases status <;> simp [Status.in_force, hbegun, hover]
  · obtain ⟨id, status, starts_at, ends_at, patch_s, ledger_enabled, confirmed, targets, rules⟩ := r
    simp only [WindowRow.effective_starts_at, WindowRow.effective_ends_at]
    by_cases hbegun : starts_at - patch_s ≤ now <;> by_cases hover : ends_at + patch_s ≤ now <;>
      cases status <;> constructor <;> simp [Status.in_force, Status.live, hbegun, hover, WindowRow.effective_ends_at]

end WindowTable

/-- What an edit or an extension makes of a row. -/
def Columns.row (columns : Columns) (r : WindowRow) : WindowRow :=
  let moved : WindowRow := { r with
    starts_at := columns.starts_at
    ends_at := columns.ends_at
    patch_s := columns.patch_s
    status := columns.status
    confirmed := r.confirmed && columns.status ≠ .pending_confirmation }
  match columns.content with
  | some content => { moved with
      ledger_enabled := content.ledger_enabled
      targets := content.targets
      rules := content.rules }
  | none => moved

/-- A window with its zone and the span that a person has last agreed to. -/
structure Card extends WindowRow where
  tz : String
  agreed : Option ℚ

def Columns.card (columns : Columns) (c : Card) : Card :=
  { toWindowRow := columns.row c.toWindowRow, tz := columns.tz, agreed := c.agreed }

/-- What a step makes of a window. -/
inductive Moved (d : Routes) (wid : Nat) (c : Card) : RouteOp → Card → Prop
  | stays (op : RouteOp) : Moved d wid c op c
  | confirmed {req : Nat} {span : ℚ} (hroute : d.suspended req = some (.confirming wid span))
      (hwaits : c.status = .pending_confirmation) :
      Moved d wid c (.commit req) { c with status := .scheduled, confirmed := true, agreed := some span }
  | changed {req : Nat} {change : Change} {now : ℚ} {columns : Columns}
      (hroute : d.suspended req = some (.changing wid change now columns)) :
      Moved d wid c (.commit req) (columns.card c)
  | cancelled (hlive : c.status.live) : Moved d wid c (.cancel wid) { c with status := .cancelled }
  | ended (now : ℚ) (hlive : c.status.live) : Moved d wid c (.end_now now wid) { c with status := .ended }
  | swept {now : ℚ} {status : Status} (hticks : c.Ticks now status) :
      Moved d wid c (.sweep now) { c with status := status }

namespace Routes
variable {d : Routes} {wid : Nat} {c : Card}

def card (d : Routes) (wid : Nat) : Option Card :=
  (d.row wid).map fun r => { toWindowRow := r, tz := d.tz wid, agreed := d.agreed wid }

/-- The windows are numbered as they are created. -/
def Numbered (d : Routes) : Prop := d.station.table.Numbered

theorem card_row (h : d.card wid = some c) :
    d.row wid = some c.toWindowRow ∧ d.tz wid = c.tz ∧ d.agreed wid = c.agreed := by
  obtain ⟨r, hrow, rfl⟩ := Option.map_eq_some_iff.mp h
  exact ⟨hrow, rfl, rfl⟩

theorem card_of_row (hrow : d.row wid = some c.toWindowRow) (htz : d.tz wid = c.tz)
    (hagreed : d.agreed wid = c.agreed) : d.card wid = some c := by
  unfold card
  rw [hrow, htz, hagreed]
  rfl

theorem row_write (d : Routes) (columns : Columns) (wid wid' : Nat) : (d.write wid' columns).row wid =
    (d.row wid).map fun r => if wid = wid' then columns.row r else r := by
  show (WindowTable.set _ wid' _).find? _ = _
  rw [WindowTable.find_set fun r => by cases columns.content <;> rfl, WindowTable.find_schedule, Option.map_map]
  refine congrArg (Option.map · (d.row wid)) (funext fun r => ?_)
  unfold Columns.row
  by_cases hwid : wid = wid'
  · simp only [Function.comp_apply, if_pos hwid]
  · simp only [Function.comp_apply, if_neg hwid]

/-- A statement that changes the status of one window where its guard holds. -/
theorem card_guarded {p : WindowRow → Prop} [DecidablePred p] {f : WindowRow → WindowRow}
    (hid : ∀ r, (f r).id = r.id) (wid' : Nat) (hc : d.card wid = some c) :
    (d.with_table (d.station.table.set wid' fun r => if p r then f r else r)).card wid = some
      (if wid = wid' ∧ p c.toWindowRow then { c with toWindowRow := f c.toWindowRow } else c) := by
  obtain ⟨hrow, htz, hagreed⟩ := card_row hc
  have hfound : (d.with_table (d.station.table.set wid' fun r => if p r then f r else r)).row wid =
      (d.row wid).map fun r => if wid = wid' then (if p r then f r else r) else r :=
    WindowTable.find_set (fun r => by split <;> [exact hid r; rfl]) wid' wid
  rw [hrow] at hfound
  refine card_of_row (hfound.trans ?_) (htz.trans ?_) (hagreed.trans ?_)
  · by_cases hwid : wid = wid' <;> by_cases hguard : p c.toWindowRow <;> simp [hwid, hguard]
  · split <;> rfl
  · split <;> rfl

theorem card_process (sig : Signal) : ({ d with station := d.station.process sig } : Routes).card wid = d.card wid := by
  unfold card row
  simp only [Station.process_table]

theorem card_swept (now : ℚ) (hc : d.card wid = some c) :
    ∃ status, c.Ticks now status ∧ ({ d with station := d.station.sweep now } : Routes).card wid =
      some { c with status := status } := by
  obtain ⟨hrow, htz, hagreed⟩ := card_row hc
  obtain ⟨f, hmap, hticks⟩ := WindowTable.advance_ticks d.station.table now
  have htable : (d.station.sweep now).table = d.station.table.advance_statuses now :=
    (Station.surfaced_sweep d.station now).table
  have hfound : ({ d with station := d.station.sweep now } : Routes).row wid =
      (d.row wid).map fun r => { r with status := f r } := by
    show (d.station.sweep now).table.find? _ = _
    rw [htable, hmap]
    exact WindowTable.find_map (by intro r; rfl) wid
  rw [hrow] at hfound
  exact ⟨f c.toWindowRow, hticks c.toWindowRow, card_of_row hfound htz hagreed⟩

theorem card_confirmed (wid' : Nat) (span : ℚ) (hc : d.card wid = some c) :
    (d.write_confirmation wid' span).card wid = some (if wid = wid' ∧ c.status = .pending_confirmation then
      { c with status := .scheduled, confirmed := true, agreed := some span } else c) := by
  obtain ⟨hrow, htz, hagreed⟩ := card_row hc
  have hguarded := (card_row (card_guarded (p := fun r => r.status = .pending_confirmation)
    (f := fun r => { r with status := .scheduled, confirmed := true }) (by intro r; rfl) wid' hc)).1
  have hrow' : (d.write_confirmation wid' span).row wid = _ := hguarded
  refine card_of_row (hrow'.trans ?_) (htz.trans ?_) ?_
  · split <;> rfl
  · split <;> rfl
  · show (if _ then Function.update d.agreed wid' (some span) else d.agreed) wid = _
    rcases eq_or_ne wid wid' with rfl | hne
    · simp only [hrow, Option.any_some, decide_eq_true_eq, true_and]
      split
      · exact Function.update_self ..
      · exact hagreed
    · have hother : (if (d.row wid').any (·.status = .pending_confirmation) then
          Function.update d.agreed wid' (some span) else d.agreed) wid = d.agreed wid := by
        split
        · exact Function.update_of_ne hne ..
        · rfl
      have hwid : ¬ (wid = wid' ∧ c.status = .pending_confirmation) := fun hboth => hne hboth.1
      rw [if_neg hwid]
      exact hother.trans hagreed

theorem card_written (columns : Columns) (wid' : Nat) (hc : d.card wid = some c) :
    (d.write wid' columns).card wid = some (if wid = wid' then columns.card c else c) := by
  obtain ⟨hrow, htz, hagreed⟩ := card_row hc
  have hwritten := row_write d columns wid wid'
  rw [hrow] at hwritten
  refine card_of_row (hwritten.trans ?_) ?_ (hagreed.trans ?_)
  · split <;> rfl
  · show Function.update d.tz wid' columns.tz wid = _
    rcases eq_or_ne wid wid' with rfl | hne
    · rw [if_pos rfl]
      exact Function.update_self ..
    · rw [if_neg hne]
      exact (Function.update_of_ne hne ..).trans htz
  · split <;> rfl

theorem narrow_valid {caller : Caller} {known : List Nat} {body : WindowBody} (h : body.valid) :
    (caller.narrow known body).valid := by
  simp only [WindowBody.valid, Bool.and_eq_true, List.all_eq_true] at h ⊢
  exact ⟨h.1, fun rule hrule => (List.mem_filter.mp hrule).2⟩

/-- With one more window. -/
def add (d : Routes) (c : Card) : Routes := { d with
  station := { d.station with table := d.station.table ++ [c.toWindowRow] }
  tz := Function.update d.tz c.id c.tz
  agreed := Function.update d.agreed c.id c.agreed }

theorem card_add (hfree : d.row c.id = none) : (d.add c).card c.id = some c := by
  refine card_of_row ?_ (Function.update_self ..) (Function.update_self ..)
  refine List.find?_append.trans ?_
  rw [show d.station.table.find? (·.id = c.id) = none from hfree]
  simp

theorem card_add_ne (hne : wid ≠ c.id) : (d.add c).card wid = d.card wid := by
  have hnew : ¬ c.id = wid := fun hid => hne hid.symm
  have hrow : (d.add c).row wid = d.row wid := by
    refine List.find?_append.trans ?_
    rw [List.find?_cons_of_neg (by simpa using hnew), List.find?_nil, Option.or_none]
    rfl
  unfold card
  rw [hrow, show (d.add c).tz wid = _ from Function.update_of_ne hne .., show (d.add c).agreed wid = _ from
    Function.update_of_ne hne ..]

/-- The window that a creation adds. -/
def created (d : Routes) (now : ℚ) (caller : Caller) (known : List Nat) (confirm : Bool) (tz : String)
    (body : WindowBody) : Card :=
  { WindowTable.created (d.station.table.length + 1) now confirm (caller.narrow known body) with
    tz := tz
    agreed := if needs_confirmation body.starts_at body.ends_at && confirm then some (body.ends_at - body.starts_at)
      else none }

/-- A creation adds one window, unless it is refused. -/
theorem create_cases (d : Routes) (now : ℚ) (caller : Caller) (known : List Nat) (confirm : Bool) (tz : String)
    (body : WindowBody) : d.create_window now caller known confirm tz body = d ∨
      d.create_window now caller known confirm tz body = d.add (d.created now caller known confirm tz body) := by
  unfold create_window
  dsimp only
  split
  · rename_i hadmitted
    rw [WindowTable.create_created (narrow_valid (Bool.and_eq_true_iff.mp hadmitted).1)]
    exact .inr rfl
  · exact .inl rfl

/-- A creation leaves the windows that there are. -/
theorem card_create (hnum : d.Numbered) (hc : d.card wid = some c) {now : ℚ} {caller : Caller} {known : List Nat}
    {confirm : Bool} {tz : String} {body : WindowBody} :
    (d.create_window now caller known confirm tz body).card wid = some c := by
  rcases create_cases d now caller known confirm tz body with hsame | hcreated
  · rw [hsame]
    exact hc
  · have hother : wid ≠ (d.created now caller known confirm tz body).id := by
      rintro rfl
      exact Option.some_ne_none _ ((card_row hc).1.symm.trans (WindowTable.Numbered.free hnum))
    rw [hcreated]
    exact (card_add_ne hother).trans hc

/-- A route that reads changes nothing but where it is suspended. -/
def Reads (d d' : Routes) : Prop := ∃ suspended, d' = { d with suspended := suspended }

theorem Reads.card {d' : Routes} (h : d.Reads d') : d'.card wid = d.card wid := by
  obtain ⟨suspended, rfl⟩ := h
  rfl

theorem Reads.table {d' : Routes} (h : d.Reads d') : d'.station.table = d.station.table := by
  obtain ⟨suspended, rfl⟩ := h
  rfl

theorem update_reads (d : Routes) (req : Nat) (caller : Caller) (known : List Nat) (wid : Nat) (tz : String)
    (body : WindowBody) : d.Reads (d.update_window req caller known wid tz body) := by
  unfold update_window
  cases d.visible caller wid with
  | none => exact ⟨d.suspended, rfl⟩
  | some window =>
    dsimp only
    split
    · exact ⟨_, rfl⟩
    · exact ⟨d.suspended, rfl⟩

theorem decide_reads (d : Routes) (req : Nat) (now : ℚ) : d.Reads (d.decide_update req now) := by
  unfold decide_update
  split
  · exact ⟨_, rfl⟩
  · exact ⟨d.suspended, rfl⟩

theorem extend_reads (d : Routes) (req : Nat) (now : ℚ) (caller : Caller) (wid : Nat) (ends_at : ℚ) :
    d.Reads (d.extend_window req now caller wid ends_at) := by
  unfold extend_window
  split
  · exact ⟨_, rfl⟩
  · exact ⟨d.suspended, rfl⟩

theorem confirm_reads (d : Routes) (req : Nat) (caller : Caller) (wid : Nat) :
    d.Reads (d.confirm_window req caller wid) := by
  unfold confirm_window
  cases d.visible caller wid with
  | none => exact ⟨d.suspended, rfl⟩
  | some window =>
    dsimp only
    split
    · exact ⟨d.suspended, rfl⟩
    · exact ⟨_, rfl⟩

theorem card_commit (hc : d.card wid = some c) (req : Nat) :
    ∃ c', (d.commit req).card wid = some c' ∧ Moved d wid c (.commit req) c' := by
  unfold commit
  split
  · rename_i wid' change now columns hroute
    rcases eq_or_ne wid wid' with rfl | hne
    · exact ⟨columns.card c, (card_written columns wid hc).trans (by rw [if_pos rfl]), .changed hroute⟩
    · exact ⟨c, (card_written columns wid' hc).trans (by rw [if_neg hne]), .stays _⟩
  · rename_i wid' span hroute
    have hconfirmed := card_confirmed wid' span hc
    by_cases hwaits : wid = wid' ∧ c.status = .pending_confirmation
    · rw [if_pos hwaits] at hconfirmed
      obtain ⟨rfl, hwaits⟩ := hwaits
      exact ⟨_, hconfirmed, .confirmed hroute hwaits⟩
    · rw [if_neg hwaits] at hconfirmed
      exact ⟨c, hconfirmed, .stays _⟩
  · exact ⟨c, hc, .stays _⟩

theorem card_cancel (hc : d.card wid = some c) (wid' : Nat) :
    ∃ c', (d.step (.cancel wid')).card wid = some c' ∧ Moved d wid c (.cancel wid') c' := by
  have hcancelled : (d.step (.cancel wid')).card wid = _ := card_guarded (p := fun r => r.status.live)
    (f := fun r => { r with status := .cancelled }) (by intro r; rfl) wid' hc
  by_cases hlive : wid = wid' ∧ c.status.live
  · rw [if_pos hlive] at hcancelled
    obtain ⟨rfl, hlive⟩ := hlive
    exact ⟨_, hcancelled, .cancelled hlive⟩
  · rw [if_neg hlive] at hcancelled
    exact ⟨c, hcancelled, .stays _⟩

theorem card_end (hc : d.card wid = some c) (now : ℚ) (wid' : Nat) :
    ∃ c', (d.step (.end_now now wid')).card wid = some c' ∧ Moved d wid c (.end_now now wid') c' := by
  by_cases hany : d.station.table.any fun r => r.id = wid' && r.status.live
  · have hended : (d.step (.end_now now wid')).card wid =
        some (if wid = wid' ∧ c.status.live then { c with status := .ended } else c) := by
      show ({ d with station := d.station.end_now now wid' } : Routes).card wid = _
      rw [Station.end_now_eq hany]
      exact card_guarded (p := fun r => r.status.live) (f := fun r => { r with status := .ended })
        (by intro r; rfl) wid' hc
    by_cases hlive : wid = wid' ∧ c.status.live
    · rw [if_pos hlive] at hended
      obtain ⟨rfl, hlive⟩ := hlive
      exact ⟨_, hended, .ended now hlive⟩
    · rw [if_neg hlive] at hended
      exact ⟨c, hended, .stays _⟩
  · have hsame : d.station.end_now now wid' = d.station := if_neg hany
    refine ⟨c, ?_, .stays _⟩
    show ({ d with station := d.station.end_now now wid' } : Routes).card wid = _
    rw [hsame]
    exact hc

theorem card_step (hnum : d.Numbered) (hc : d.card wid = some c) (op : RouteOp) :
    ∃ c', (d.step op).card wid = some c' ∧ Moved d wid c op c' := by
  cases op with
  | signal sig => exact ⟨c, (card_process sig).trans hc, .stays _⟩
  | create now caller known confirm tz body => exact ⟨c, card_create hnum hc, .stays _⟩
  | update req caller known wid' tz body => exact ⟨c, (update_reads ..).card.trans hc, .stays _⟩
  | decide req now => exact ⟨c, (decide_reads ..).card.trans hc, .stays _⟩
  | extend req now caller wid' ends_at => exact ⟨c, (extend_reads ..).card.trans hc, .stays _⟩
  | confirm req caller wid' => exact ⟨c, (confirm_reads ..).card.trans hc, .stays _⟩
  | commit req => exact card_commit hc req
  | cancel wid' => exact card_cancel hc wid'
  | end_now now wid' => exact card_end hc now wid'
  | sweep now =>
    obtain ⟨status, hticks, hswept⟩ := card_swept now hc
    exact ⟨_, hswept, .swept hticks⟩
  | sweep_fails now failure =>
    refine ⟨c, ?_, .stays _⟩
    cases failure <;> exact hc
  | restart => exact ⟨c, hc, .stays _⟩

/-- Only a creation adds a window. -/
theorem step_ids (d : Routes) (op : RouteOp) : (d.step op).station.table.map (·.id) = d.station.table.map (·.id) ∨
    ∃ now caller known confirm tz body, op = .create now caller known confirm tz body := by
  cases op with
  | signal sig => exact .inl (congrArg _ (Station.process_table sig))
  | create now caller known confirm tz body => exact .inr ⟨now, caller, known, confirm, tz, body, rfl⟩
  | update req caller known wid tz body =>
    exact .inl (congrArg _ (update_reads d req caller known wid tz body).table)
  | decide req now => exact .inl (congrArg _ (decide_reads d req now).table)
  | extend req now caller wid ends_at => exact .inl (congrArg _ (extend_reads d req now caller wid ends_at).table)
  | confirm req caller wid => exact .inl (congrArg _ (confirm_reads d req caller wid).table)
  | commit req =>
    refine .inl ?_
    show (d.commit req).station.table.map _ = _
    unfold commit
    split
    · rename_i wid change now columns hroute
      refine (WindowTable.ids_set (fun r => ?_) wid).trans (WindowTable.ids_set (by intro r; rfl) wid)
      cases columns.content <;> rfl
    · rename_i wid span hroute
      exact WindowTable.ids_set (fun r => by split <;> rfl) wid
    · rfl
  | cancel wid => exact .inl (WindowTable.ids_set (fun r => by split <;> rfl) wid)
  | end_now now wid =>
    refine .inl ?_
    show (d.station.end_now now wid).table.map _ = _
    unfold Station.end_now
    split
    · exact WindowTable.ids_set (fun r => by split <;> rfl) wid
    · rfl
  | sweep now =>
    refine .inl ?_
    show (d.station.sweep now).table.map _ = _
    obtain ⟨f, hmap, -⟩ := WindowTable.advance_ticks d.station.table now
    rw [show (d.station.sweep now).table = _ from (Station.surfaced_sweep d.station now).table]
    show (d.station.table.advance_statuses now).map _ = _
    rw [hmap]
    exact WindowTable.ids_map (by intro r; rfl)
  | sweep_fails now failure =>
    refine .inl ?_
    cases failure <;> rfl
  | restart => exact .inl rfl

theorem numbered_step (hnum : d.Numbered) (op : RouteOp) : (d.step op).Numbered := by
  rcases step_ids d op with hids | ⟨now, caller, known, confirm, tz, body, rfl⟩
  · exact WindowTable.Numbered.of_ids hnum hids
  · show (d.create_window now caller known confirm tz body).Numbered
    rcases create_cases d now caller known confirm tz body with hsame | hcreated
    · rw [hsame]
      exact hnum
    · have hids : d.station.table.map (·.id) = List.range' 1 d.station.table.length := hnum
      rw [hcreated]
      show WindowTable.Numbered (d.station.table ++ [(d.created now caller known confirm tz body).toWindowRow])
      unfold WindowTable.Numbered
      rw [List.map_append, hids, List.length_append, List.length_singleton, List.range'_concat, Nat.one_mul,
        Nat.add_comm 1]
      rfl

/-- A window that was not there is one that is created. -/
theorem card_new (hnum : d.Numbered) (hnone : d.card wid = none) {op : RouteOp} (hc : (d.step op).card wid = some c) :
    ∃ now caller known confirm tz body, c = d.created now caller known confirm tz body := by
  have hrow : d.row wid = none := Option.map_eq_none_iff.mp hnone
  rcases step_ids d op with hids | ⟨now, caller, known, confirm, tz, body, rfl⟩
  · obtain ⟨hrow', -, -⟩ := card_row hc
    have hid : c.id = wid := by simpa using List.find?_some hrow'
    have hmem : wid ∈ d.station.table.map (·.id) := hids ▸ hid ▸ List.mem_map_of_mem (List.mem_of_find?_eq_some hrow')
    obtain ⟨r, hr, hid⟩ := List.mem_map.mp hmem
    exact absurd (by simpa using hid) (List.find?_eq_none.mp hrow r hr)
  · refine ⟨now, caller, known, confirm, tz, body, ?_⟩
    have hc : (d.create_window now caller known confirm tz body).card wid = some c := hc
    rcases create_cases d now caller known confirm tz body with hsame | hcreated
    · rw [hsame, hnone] at hc
      exact absurd hc (Option.some_ne_none c).symm
    · rw [hcreated] at hc
      by_cases hwid : wid = (d.created now caller known confirm tz body).id
      · subst hwid
        have hfree : d.row (d.created now caller known confirm tz body).id = none := WindowTable.Numbered.free hnum
        exact (Option.some.inj ((card_add hfree).symm.trans hc)).symm
      · rw [card_add_ne hwid, hnone] at hc
        exact absurd hc (Option.some_ne_none c).symm

end Routes

theorem restatus_cases (r : WindowRow) (needs : Bool) (starts_at now ends_at : ℚ) :
    (restatus r needs starts_at now ends_at = .pending_confirmation ∧ needs ∧
      (r.confirmed = false ∨ r.ends_at - r.starts_at < ends_at - starts_at)) ∨
    (restatus r needs starts_at now ends_at = initial_status starts_at now ∧
      (needs → r.confirmed ∧ ends_at - starts_at ≤ r.ends_at - r.starts_at)) := by
  unfold restatus
  dsimp only
  split
  · rename_i hwaits
    simp only [Bool.and_eq_true, Bool.or_eq_true, Bool.not_eq_true', decide_eq_true_eq] at hwaits
    exact .inl ⟨rfl, hwaits⟩
  · rename_i hholds
    simp only [Bool.and_eq_true, Bool.or_eq_true, Bool.not_eq_true', decide_eq_true_eq, not_and, not_or,
      Bool.not_eq_false, not_lt] at hholds
    exact .inr ⟨rfl, hholds⟩

theorem initial_ne (starts_at now : ℚ) : initial_status starts_at now ≠ .pending_confirmation := by
  unfold initial_status
  split <;> simp

/-- What an edit leaves of a window that runs. Its start and its patch band may move by half a second. -/
structure Card.Keeps (c c' : Card) : Prop where
  starts_at : |c.starts_at - c'.starts_at| ≤ 1 / 2
  tz : c'.tz = c.tz
  patch_s : |c.patch_s - c'.patch_s| ≤ 1 / 2
  ledger_enabled : c'.ledger_enabled = c.ledger_enabled
  targets : c'.targets.Perm c.targets
  rules : c'.rules.Perm c.rules

theorem Card.Keeps.refl (c : Card) : c.Keeps c := ⟨by simp, rfl, by simp, rfl, .refl _, .refl _⟩

/-- What a request that is not refused has found. -/
structure Columns.Decided (columns : Columns) (now : ℚ) (r : WindowRow) : Prop where
  live : r.status.live
  status : columns.status =
    restatus r (needs_confirmation columns.starts_at columns.ends_at) columns.starts_at now columns.ends_at

theorem Caller.kept_nodup (caller : Caller) (window : WindowRow) (known : List Nat) (body : WindowBody) :
    (caller.keep_unseen window (caller.narrow known body)).targets.Nodup := by
  unfold keep_unseen
  cases caller.ne_ids with
  | none => exact (List.nodup_dedup _).filter _
  | some ne_ids => exact List.nodup_dedup _

theorem Change.decided {change : Change} {now : ℚ} {r : WindowRow} {tz : String} {columns : Columns}
    (h : change.columns now r tz = some columns) : columns.Decided now r := by
  cases change with
  | update caller known tz' body =>
    obtain ⟨hguard, hcolumns⟩ := Option.ite_none_right_eq_some.mp h
    obtain rfl := Option.some.inj hcolumns
    simp only [Bool.and_eq_true] at hguard
    exact ⟨hguard.1.1.1, rfl⟩
  | extend ends_at =>
    obtain ⟨hguard, hcolumns⟩ := Option.ite_none_right_eq_some.mp h
    obtain rfl := Option.some.inj hcolumns
    exact ⟨(Bool.and_eq_true_iff.mp hguard).1, rfl⟩

/-- An edit of a window that runs is refused if it moves more than its end. -/
theorem Change.keeps {change : Change} {now : ℚ} {c : Card} {columns : Columns}
    (h : change.columns now c.toWindowRow c.tz = some columns) (hactive : c.status = .active) :
    c.Keeps (columns.card c) := by
  cases change with
  | update caller known tz' body =>
    obtain ⟨hguard, hcolumns⟩ := Option.ite_none_right_eq_some.mp h
    obtain rfl := Option.some.inj hcolumns
    have hnodup := caller.kept_nodup c.toWindowRow known body
    have hwords : (caller.keep_unseen c.toWindowRow (caller.narrow known body)).starts_at = body.starts_at ∧
        (caller.keep_unseen c.toWindowRow (caller.narrow known body)).patch_s = body.patch_s ∧
        (caller.keep_unseen c.toWindowRow (caller.narrow known body)).ledger_enabled = body.ledger_enabled := by
      unfold Caller.keep_unseen
      cases caller.ne_ids <;> exact ⟨rfl, rfl, rfl⟩
    simp only [Bool.and_eq_true, frozen_while_active, hactive, decide_true, Bool.true_and, Bool.not_eq_true',
      Bool.or_eq_false_iff, decide_eq_false_iff_not, bne_eq_false_iff_eq, not_lt, Bool.not_eq_false',
      List.isPerm_iff, hwords] at hguard
    obtain ⟨htz, ⟨⟨⟨hstart, hpatch⟩, hledger⟩, htargets⟩, hrules⟩ := hguard.1.2
    refine ⟨hstart, htz.symm, hpatch, hledger.symm, ?_, hrules.symm⟩
    show (List.dedup _).Perm c.targets
    rw [hnodup.dedup]
    exact htargets.symm
  | extend ends_at =>
    obtain ⟨-, hcolumns⟩ := Option.ite_none_right_eq_some.mp h
    obtain rfl := Option.some.inj hcolumns
    exact ⟨by simp [Columns.card, Columns.row], rfl, by simp [Columns.card, Columns.row], rfl, .refl _, .refl _⟩

/-- A confirmation covers the span that it was given for. -/
structure Card.Held (c : Card) : Prop where
  agreed : c.confirmed → needs_confirmation c.starts_at c.ends_at →
    ∃ span ∈ c.agreed, c.ends_at - c.starts_at ≤ span
  confirmed : c.status.in_force → needs_confirmation c.starts_at c.ends_at → c.confirmed

/-- A long window that is in force holds a confirmation, which was given for a span no shorter than its own. -/
def Card.Agreed (c : Card) : Prop := c.status.in_force → needs_confirmation c.starts_at c.ends_at →
  c.confirmed ∧ ∃ span ∈ c.agreed, c.ends_at - c.starts_at ≤ span

theorem Card.Held.covers {c : Card} (h : c.Held) : c.Agreed := fun hforce hneeds =>
  ⟨h.confirmed hforce hneeds, h.agreed (h.confirmed hforce hneeds) hneeds⟩

namespace Routes
variable {d : Routes} {wid : Nat} {c c' : Card} {op : RouteOp}

/-- A route that writes finds a window on which it would decide as it did on the one that it has read. A
confirmation finds one that is no longer. -/
def Settled (d : Routes) : RouteOp → Prop
  | .commit req => match d.suspended req with
    | some (.changing wid change now columns) => ∀ r ∈ d.row wid, change.columns now r (d.tz wid) = some columns
    | some (.confirming wid span) =>
      ∀ r ∈ d.row wid, r.status = .pending_confirmation → r.ends_at - r.starts_at ≤ span
    | _ => True
  | _ => True

/-- How a window that runs stops running. The sweep and End now surface what its ledger holds; the others are a
cancellation, and an edit or an extension after which it waits again. -/
inductive Leaves (d : Routes) (wid : Nat) (c : Card) : RouteOp → Prop
  | swept {now : ℚ} (hended : wid ∈ d.station.table.just_ended now)
      (hactive : ∀ f, d.station.raised wid f → (d.station.sweep now).active f)
      (hnone : ∀ f, (d.station.sweep now).raised wid f = false) : Leaves d wid c (.sweep now)
  | ended {now : ℚ} (hactive : ∀ f, d.station.unresolved wid f → (d.station.end_now now wid).active f)
      (hnone : ∀ f, (d.station.end_now now wid).raised wid f = false) : Leaves d wid c (.end_now now wid)
  | cancelled : Leaves d wid c (.cancel wid)
  | unconfirmed {req : Nat} {change : Change} {now : ℚ} {columns : Columns}
      (hroute : d.suspended req = some (.changing wid change now columns))
      (hstatus : columns.status = .pending_confirmation)
      (hneeds : needs_confirmation columns.starts_at columns.ends_at)
      (hlonger : c.confirmed = false ∨ c.ends_at - c.starts_at < columns.ends_at - columns.starts_at) :
      Leaves d wid c (.commit req)
  | early {req : Nat} {change : Change} {now : ℚ} {columns : Columns}
      (hroute : d.suspended req = some (.changing wid change now columns))
      (hstatus : columns.status = .scheduled) (hearly : now < columns.starts_at) : Leaves d wid c (.commit req)

theorem Settled.columns {req : Nat} {change : Change} {now : ℚ} {columns : Columns} (h : d.Settled (.commit req))
    (hc : d.card wid = some c) (hroute : d.suspended req = some (.changing wid change now columns)) :
    change.columns now c.toWindowRow c.tz = some columns := by
  obtain ⟨hrow, htz, -⟩ := card_row hc
  unfold Settled at h
  simp only [hroute] at h
  exact htz ▸ h _ hrow

theorem Settled.span {req : Nat} {span : ℚ} (h : d.Settled (.commit req)) (hc : d.card wid = some c)
    (hroute : d.suspended req = some (.confirming wid span)) (hwaits : c.status = .pending_confirmation) :
    c.ends_at - c.starts_at ≤ span := by
  obtain ⟨hrow, -, -⟩ := card_row hc
  unfold Settled at h
  simp only [hroute] at h
  exact h _ hrow hwaits

theorem row_status (columns : Columns) (c : Card) : (columns.card c).status = columns.status := by
  unfold Columns.card Columns.row
  cases columns.content <;> rfl

theorem row_confirmed (columns : Columns) (c : Card) :
    (columns.card c).confirmed = (c.confirmed && columns.status ≠ .pending_confirmation) := by
  unfold Columns.card Columns.row
  cases columns.content <;> rfl

theorem row_span (columns : Columns) (c : Card) :
    (columns.card c).starts_at = columns.starts_at ∧ (columns.card c).ends_at = columns.ends_at := by
  unfold Columns.card Columns.row
  cases columns.content <;> exact ⟨rfl, rfl⟩

/-- A window that is over does not come back. -/
theorem finished_moved (hmoved : Moved d wid c op c') (hc : d.card wid = some c) (hsettled : d.Settled op)
    (hdead : c.status.live = false) : c'.status = c.status := by
  cases hmoved with
  | stays => rfl
  | confirmed hroute hwaits => exact absurd (hwaits ▸ hdead) (by decide)
  | changed hroute =>
    have hdecided := Change.decided (hsettled.columns hc hroute)
    exact absurd (hdecided.live.symm.trans hdead) (by decide)
  | cancelled hlive => exact absurd (hlive.symm.trans hdead) (by decide)
  | ended now hlive => exact absurd (hlive.symm.trans hdead) (by decide)
  | swept hticks => exact hticks.finished hdead

theorem held_moved (hmoved : Moved d wid c op c') (hc : d.card wid = some c) (hsettled : d.Settled op)
    (h : c.Held) : c'.Held := by
  cases hmoved with
  | stays => exact h
  | confirmed hroute hwaits =>
    have hspan := hsettled.span hc hroute hwaits
    exact ⟨fun _ _ => ⟨_, rfl, hspan⟩, fun _ _ => rfl⟩
  | @changed req change now columns hroute =>
    have hdecided := Change.decided (hsettled.columns hc hroute)
    obtain ⟨hstart, hend⟩ := row_span columns c
    rcases restatus_cases c.toWindowRow (needs_confirmation columns.starts_at columns.ends_at) columns.starts_at now
      columns.ends_at with ⟨hwaits, -, -⟩ | ⟨hinitial, hholds⟩
    · have hstatus : columns.status = .pending_confirmation := hdecided.status.trans hwaits
      refine ⟨fun hconfirmed => ?_, fun hforce => ?_⟩
      · rw [row_confirmed, hstatus] at hconfirmed
        simp at hconfirmed
      · rw [row_status, hstatus] at hforce
        exact absurd hforce (by decide)
    · have hstatus : columns.status ≠ .pending_confirmation :=
        (hdecided.status.trans hinitial).trans_ne (initial_ne columns.starts_at now)
      have hcovered : needs_confirmation columns.starts_at columns.ends_at →
          c.confirmed ∧ columns.ends_at - columns.starts_at ≤ c.ends_at - c.starts_at := hholds
      have hbefore (hneeds : needs_confirmation columns.starts_at columns.ends_at) :
          needs_confirmation c.starts_at c.ends_at := by
        have hshorter := (hcovered hneeds).2
        simp only [needs_confirmation, decide_eq_true_eq] at hneeds ⊢
        exact hneeds.trans_le hshorter
      have hconfirmed (hneeds : needs_confirmation columns.starts_at columns.ends_at) :
          (columns.card c).confirmed := by
        rw [row_confirmed, (hcovered hneeds).1]
        simpa using hstatus
      refine ⟨fun _ hneeds => ?_, fun _ hneeds => ?_⟩
      · rw [hstart, hend] at hneeds ⊢
        obtain ⟨span, hagreed, hspan⟩ := h.agreed (hcovered hneeds).1 (hbefore hneeds)
        exact ⟨span, hagreed, (hcovered hneeds).2.trans hspan⟩
      · rw [hstart, hend] at hneeds
        exact hconfirmed hneeds
  | cancelled hlive => exact ⟨h.agreed, fun hforce => absurd hforce Bool.false_ne_true⟩
  | ended now hlive => exact ⟨h.agreed, fun hforce => absurd hforce Bool.false_ne_true⟩
  | swept hticks => exact ⟨h.agreed, fun hforce => h.confirmed (hticks.in_force hforce)⟩

/-- A step leaves what it may not move of a window that runs. -/
theorem keeps_moved (hmoved : Moved d wid c op c') (hc : d.card wid = some c) (hsettled : d.Settled op)
    (hactive : c.status = .active) : c.Keeps c' := by
  cases hmoved with
  | changed hroute => exact Change.keeps (hsettled.columns hc hroute) hactive
  | stays => exact .refl c
  | confirmed => exact ⟨by simp, rfl, by simp, rfl, .refl _, .refl _⟩
  | cancelled => exact ⟨by simp, rfl, by simp, rfl, .refl _, .refl _⟩
  | ended => exact ⟨by simp, rfl, by simp, rfl, .refl _, .refl _⟩
  | swept => exact ⟨by simp, rfl, by simp, rfl, .refl _, .refl _⟩

theorem leaves_swept {now : ℚ} (hc : d.card wid = some c) (hactive : c.status = .active)
    (hover : c.effective_ends_at ≤ now) : d.Leaves wid c (.sweep now) := by
  have hrow : d.station.table.find? (·.id = wid) = some c.toWindowRow := (card_row hc).1
  have hid : c.id = wid := by simpa using List.find?_some hrow
  have hended : wid ∈ d.station.table.just_ended now := by
    refine hid ▸ List.mem_map_of_mem (List.mem_filter.mpr ⟨List.mem_of_find?_eq_some hrow, ?_⟩)
    simp [hactive, Status.in_force, hover]
  refine .swept hended (fun f hraised => Station.active_sweep.mpr (.inr ⟨wid, hended, hraised⟩)) fun f => ?_
  rw [Station.raised_sweep]
  simp [hended]

theorem leaves_ended (hc : d.card wid = some c) (hlive : c.status.live) (now : ℚ) :
    d.Leaves wid c (.end_now now wid) := by
  have hrow : d.station.table.find? (·.id = wid) = some c.toWindowRow := (card_row hc).1
  have hid : c.id = wid := by simpa using List.find?_some hrow
  have hany : d.station.table.any fun r => r.id = wid && r.status.live :=
    List.any_eq_true.mpr ⟨c.toWindowRow, List.mem_of_find?_eq_some hrow, by simp [hid, hlive]⟩
  refine .ended (fun f hunresolved => ?_) fun f => Station.raised_end_now hany
  rw [Station.active_end_now hany, hunresolved, Bool.or_true]

/-- A window that runs stops in one of five ways. -/
theorem leaves_moved (hmoved : Moved d wid c op c') (hc : d.card wid = some c) (hsettled : d.Settled op)
    (hactive : c.status = .active) (hstops : c'.status ≠ .active) : d.Leaves wid c op := by
  cases hmoved with
  | stays => exact absurd hactive hstops
  | confirmed hroute hwaits => exact absurd (hwaits.symm.trans hactive) (by decide)
  | @changed req change now columns hroute =>
    have hdecided := Change.decided (hsettled.columns hc hroute)
    rw [row_status] at hstops
    rcases restatus_cases c.toWindowRow (needs_confirmation columns.starts_at columns.ends_at) columns.starts_at now
      columns.ends_at with ⟨hwaits, hneeds, hlonger⟩ | ⟨hinitial, -⟩
    · exact .unconfirmed hroute (hdecided.status.trans hwaits) hneeds hlonger
    · have hstatus : columns.status = initial_status columns.starts_at now := hdecided.status.trans hinitial
      unfold initial_status at hstatus
      split at hstatus
      · exact absurd hstatus hstops
      · rename_i hearly
        exact .early hroute hstatus (not_le.mp hearly)
  | cancelled => exact .cancelled
  | ended now hlive => exact leaves_ended hc hlive now
  | swept hticks => exact leaves_swept hc hactive ((hticks.active hactive).resolve_left hstops)

/-- What every run in which the routes find what they have read keeps. -/
structure Steady (d : Routes) : Prop where
  numbered : d.Numbered
  held : ∀ wid c, d.card wid = some c → c.Held

theorem held_created (d : Routes) (now : ℚ) (caller : Caller) (known : List Nat) (confirm : Bool) (tz : String)
    (body : WindowBody) : (d.created now caller known confirm tz body).Held := by
  refine ⟨fun hconfirmed _ => ⟨_, if_pos hconfirmed, le_refl _⟩, fun hforce hneeds => ?_⟩
  have hlong : needs_confirmation body.starts_at body.ends_at = true := hneeds
  have hstatus : (if needs_confirmation body.starts_at body.ends_at && !confirm then Status.pending_confirmation
    else initial_status body.starts_at now).in_force = true := hforce
  cases confirm with
  | true => exact Bool.and_eq_true_iff.mpr ⟨hlong, rfl⟩
  | false =>
    rw [hlong] at hstatus
    exact absurd hstatus Bool.false_ne_true

theorem steady_step (h : d.Steady) (hsettled : d.Settled op) : (d.step op).Steady := by
  refine ⟨numbered_step h.numbered op, fun wid c hc => ?_⟩
  cases hbefore : d.card wid with
  | none =>
    obtain ⟨now, caller, known, confirm, tz, body, rfl⟩ := card_new h.numbered hbefore hc
    exact held_created d now caller known confirm tz body
  | some c₀ =>
    obtain ⟨c', hc', hmoved⟩ := card_step h.numbered hbefore op
    obtain rfl : c' = c := Option.some.inj (hc'.symm.trans hc)
    exact held_moved hmoved hbefore hsettled (h.held wid c₀ hbefore)

theorem steady_start : ({} : Routes).Steady := ⟨rfl, fun _ _ hc => nomatch hc⟩

theorem steady_run {ops : List RouteOp} (h : d.Steady) (hops : Runs.Meets step Settled d ops) :
    (Runs.run step d ops).Steady :=
  Runs.run_invariant (fun _ _ hs hsettled => steady_step hs hsettled) _ ops h hops

theorem finished_run {ops : List RouteOp} (h : d.Steady) (hops : Runs.Meets step Settled d ops)
    (hc : d.card wid = some c) (hdead : c.status.live = false) :
    ∃ c', (Runs.run step d ops).card wid = some c' ∧ c'.status = c.status := by
  induction ops generalizing d c with
  | nil => exact ⟨c, hc, rfl⟩
  | cons op ops ih =>
    obtain ⟨c₁, hc₁, hmoved⟩ := card_step h.numbered hc op
    have hsame : c₁.status = c.status := finished_moved hmoved hc hops.1 hdead
    obtain ⟨c', hc', hstatus⟩ := ih (steady_step h hops.1) hops.2 hc₁ (hsame ▸ hdead)
    exact ⟨c', hc', hstatus.trans hsame⟩

/-- While requests are under way, a window that is over stays over, one that is long is in force only as long as
somebody has agreed to it, and one that runs keeps what it has and does not stop unseen. -/
theorem lifecycle_kept (before after : List RouteOp) (h : Runs.Meets step Settled {} (before ++ after)) (wid : Nat)
    (c : Card) (hc : (Runs.run step {} before).card wid = some c) :
    c.Agreed ∧
    (c.status.live = false →
      ∃ c', (Runs.run step {} (before ++ after)).card wid = some c' ∧ c'.status = c.status) ∧
    (c.status = .active → ∀ op rest, after = op :: rest →
      ∃ c', (Runs.run step {} (before ++ [op])).card wid = some c' ∧ c.Keeps c' ∧
        (c'.status ≠ .active → (Runs.run step {} before).Leaves wid c op)) := by
  obtain ⟨hbefore, hafter⟩ := (Runs.meets_append _ _ _).mp h
  have hsteady := steady_run steady_start hbefore
  refine ⟨(hsteady.held wid c hc).covers, fun hdead => ?_, ?_⟩
  · rw [Runs.run_append]
    exact finished_run hsteady hafter hc hdead
  · rintro hactive op rest rfl
    obtain ⟨c', hc', hmoved⟩ := card_step hsteady.numbered hc op
    rw [Runs.run_append]
    exact ⟨c', hc', keeps_moved hmoved hc hafter.1 hactive, leaves_moved hmoved hc hafter.1 hactive⟩

instance (d : Routes) : DecidablePred d.Settled := fun op => by
  unfold Settled
  split
  · split <;> infer_instance
  · exact .isTrue trivial

/-- A window of an hour on an element. -/
def hour (starts_at ends_at : ℚ) : WindowBody :=
  { starts_at := starts_at, ends_at := ends_at, ledger_enabled := true, targets := [7] }

def running : List RouteOp := [.create 0 {} [7] false "UTC" (hour 100 3700), .sweep 50]

/-- A fault in it, which is written down. -/
def outage : Signal := { trap := { ne_id := 7, ts := 300 }, class_id := 1, inst := "", kind := .raise }

def suppressing : List RouteOp := running ++ [.signal outage, .sweep 305]

/-- A token creates a window of eight hours and a person confirms it. It runs, and an edit is about to shorten it. -/
def shortening : List RouteOp := [.create 0 { is_token := true } [7] false "UTC" (hour 1000 30000), .confirm 1 {} 1,
  .commit 1, .sweep 950, .update 2 {} [7] 1 "UTC" (hour 1000 28000), .decide 2 2000]

theorem lifecycle_kept_confirmed : ∃ c, (Runs.run step {} shortening).card 1 = some c ∧
    (c.status = .active ∧ needs_confirmation c.starts_at c.ends_at) ∧ c.Agreed ∧
    ∃ c', (Runs.run step {} (shortening ++ [.commit 2])).card 1 = some c' ∧ c.Keeps c' := by
  have hsome : ((Runs.run step {} shortening).card 1).isSome := by decide +kernel
  obtain ⟨c, hc⟩ := Option.isSome_iff_exists.mp hsome
  have hshown : ∀ c ∈ (Runs.run step {} shortening).card 1,
      c.status = .active ∧ needs_confirmation c.starts_at c.ends_at := by decide +kernel
  obtain ⟨hagreed, -, hkept⟩ := lifecycle_kept shortening
    [.commit 2, .extend 3 2100 {} 1 40000, .commit 3, .confirm 4 {} 1, .commit 4, .sweep 2105, .end_now 2110 1]
    (by decide +kernel) 1 c hc
  obtain ⟨c', hc', hkeeps, -⟩ := hkept (hshown c hc).1 _ _ rfl
  exact ⟨c, hc, hshown c hc, hagreed, c', hc', hkeeps⟩

def edited : List RouteOp :=
  running ++ [.update 1 {} [7] 1 "UTC" (hour (502 / 5) 3700), .decide 1 200, .commit 1]

def called_off : List RouteOp := suppressing ++ [.cancel 1, .sweep 4000]

def stretched : List RouteOp := suppressing ++ [.extend 1 310 {} 1 30000, .commit 1, .sweep 315]

def put_off : List RouteOp := running ++ [.extend 1 60 {} 1 4000, .commit 1]

def overtaken : List RouteOp := running ++ [.extend 1 310 {} 1 4000, .end_now 320 1]

def shown (ops : List RouteOp) : Option (Status × ℚ) :=
  ((Runs.run step {} ops).row 1).map fun r => (r.status, r.starts_at)

/-- An edit moves the start of a window that runs. One that is cancelled, or that an extension makes longer than six
hours, never surfaces; one that is extended before its start is scheduled again. One that is ended while an extension
is under way runs again. -/
theorem lifecycle_moved :
    (shown running = some (.active, 100) ∧ shown edited = some (.active, 502 / 5)) ∧
    (shown suppressing = some (.active, 100) ∧ (Runs.run step {} suppressing).station.raised 1 outage.fault) ∧
    (shown called_off = some (.cancelled, 100) ∧ (Runs.run step {} called_off).station.active outage.fault = false) ∧
    (shown stretched = some (.expired, 100) ∧ (Runs.run step {} stretched).station.active outage.fault = false) ∧
    shown put_off = some (.scheduled, 100) ∧
    (shown overtaken = some (.ended, 100) ∧ shown (overtaken ++ [.commit 1]) = some (.active, 100)) := by
  decide +kernel

end Routes
end NetCoreNoc.Maintenance

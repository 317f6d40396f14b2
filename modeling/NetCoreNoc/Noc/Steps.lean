import Mathlib
import NetCoreNoc.Noc.Refusal
import NetCoreNoc.Noc.Walk

/-! What one step of a stored playbook does: its texts are filled, its act is checked, its event is stored and its
tests are read, whatever the situation and the device are. -/
namespace NetCoreNoc.Noc.Playbook

open Json Text Checks Templates

variable {F : Type}

/-! Texts that are filled -/

/-- What may stand in a slot's place: no brace, and something to see. -/
structure Value (a : Str) : Prop where
  plain : ∀ c ∈ a, ¬ IsBrace c
  shown : ∃ c ∈ a, ¬ isWhite c

private theorem plain_char {c : CodePoint} (h : isLetter c ∨ isDigit c ∨ c ∈ lit "./:_-") :
    ¬ IsBrace c ∧ ¬ isWhite c := by
  have hval : 45 ≤ c.val ∧ c.val ≤ 58 ∨ 65 ≤ c.val ∧ c.val ≤ 122 := by
    simp only [isLetter, isDigit, decide_eq_true_eq] at h
    rcases h with h | h | h
    · omega
    · omega
    · have hlit : (lit "./:_-").all fun c => 45 ≤ c.val ∧ c.val ≤ 58 ∨ 65 ≤ c.val ∧ c.val ≤ 122 := by decide +kernel
      simpa using List.all_eq_true.mp hlit c h
  constructor
  · rintro (rfl | rfl) <;> revert hval <;> decide
  · simp only [isWhite, SPACES, List.any_cons, List.any_nil, Bool.or_false, Bool.or_eq_true, decide_eq_true_eq]
    omega

theorem mem_chomp {c : CodePoint} {s : Str} (h : c ∈ s) : c ∈ chomp s ∨ c = chr '\n' := by
  unfold chomp
  split
  · next hlast =>
    rw [← List.dropLast_append_getLast? _ hlast] at h
    exact (List.mem_append.mp h).imp_right List.mem_singleton.mp
  · exact .inl h

variable {slots : Slots}

theorem value_of_plain {slot v : Str} (h : plain slots slot = some v) : Value v := by
  obtain ⟨-, hv⟩ := Option.filter_eq_some_iff.mp h
  simp only [PLAIN, decide_eq_true_eq, List.all_eq_true] at hv
  obtain ⟨-, hpos, -, hall⟩ := hv
  constructor
  · intro c hc
    rcases mem_chomp hc with hc | rfl
    · exact (plain_char (hall c hc)).1
    · rintro (h | h) <;> revert h <;> decide
  · obtain ⟨c, hc⟩ := List.exists_mem_of_length_pos hpos
    refine ⟨c, ?_, (plain_char (hall c hc)).2⟩
    unfold chomp at hc
    split at hc
    · exact List.mem_of_mem_dropLast hc
    · exact hc

private theorem value_x : Value (lit "x") :=
  ⟨fun c hc => (plain_char (.inl (by rw [List.mem_singleton.mp hc]; rfl))).1, chr 'x', by decide, by decide⟩

/-- A slot that a text names and that the situation has no plain value for. -/
def Unplain (slots : Slots) (s : Str) : Prop := ∃ slot ∈ SLOTS, token slot <:+: s ∧ plain slots slot = none

private theorem substituteSlot_cases (slots : Slots) (out slot : Str) :
    (∃ a, Value a ∧ substituteSlot slots out slot = .ok (replace (token slot) a out)) ∨
      token slot <:+: out ∧ plain slots slot = none ∧ substituteSlot slots out slot =
        .error (.CommandError (token slot ++ lit ": the situation has no plain value for it")) := by
  unfold substituteSlot
  by_cases hin : token slot <:+: out
  · rw [if_neg (not_not.mpr hin)]
    rcases hplain : plain slots slot with - | v
    · exact .inr ⟨hin, rfl, rfl⟩
    · exact .inl ⟨v, value_of_plain hplain, rfl⟩
  · rw [if_pos hin]
    exact .inl ⟨lit "x", value_x, by rw [replace_absent hin]⟩

/-- A fillable text is filled, or it names a slot without a plain value. -/
theorem substitute_cases {s : Str} (slots : Slots) (h : Fillable (F := F) (.str s)) :
    (∃ a b, Value a ∧ Value b ∧ substitute s slots = .ok (filledBy a b s)) ∨
      ∃ e, substitute s slots = .error e ∧ e.IsCommandError ∧ Unplain slots s := by
  have hfold : substitute s slots =
      substituteSlot slots s (lit "ip") >>= fun out => substituteSlot slots out (lit "entity") := by
    rw [substitute, SLOTS, List.foldlM_cons]
    congr 1
    funext out
    rw [List.foldlM_cons]
    rcases substituteSlot slots out (lit "entity") with e | r <;> rfl
  rw [hfold]
  rcases substituteSlot_cases slots s (lit "ip") with ⟨a, ha, heq⟩ | ⟨hin, hnone, heq⟩
  · rw [heq]
    rcases substituteSlot_cases slots (replace (token (lit "ip")) a s) (lit "entity") with
      ⟨b, hb, heq'⟩ | ⟨hin, hnone, heq'⟩
    · exact .inl ⟨a, b, ha, hb, heq'⟩
    · exact .inr ⟨_, heq', refusal (by decide +kernel), lit "entity", by simp [SLOTS],
        h.named ha.plain hin, hnone⟩
  · rw [heq]
    exact .inr ⟨_, rfl, refusal (by decide +kernel), lit "ip", by simp [SLOTS], hin, hnone⟩

/-! Leaves that are filled -/

private theorem lookup_set {α : Type} (o : List (Str × α)) (k other : Str) (v : α) :
    (o.map fun e => if e.1 = k then (k, v) else e).lookup other =
      if other = k then (o.lookup k).map fun _ => v else o.lookup other := by
  induction o with
  | nil => simp
  | cons e o ih =>
    rw [List.map_cons, List.lookup_cons, ih, List.lookup_cons, List.lookup_cons]
    by_cases hother : other = k
    · subst hother
      by_cases he : e.1 = other
      · simp [he]
      · simp [he, beq_eq_false_iff_ne.mpr (Ne.symm he)]
    · by_cases he : e.1 = k
      · simp [he, hother, beq_eq_false_iff_ne.mpr hother]
      · simp [he, hother]

theorem get_put {o : Entries F} {key other : String} {v : Doc F} :
    get (put o (lit key) v) other = if lit other = lit key then some v else get o other := by
  unfold get put
  split
  · next hany =>
    rw [lookup_set]
    split
    · obtain ⟨e, he, hkey⟩ := List.any_eq_true.mp hany
      obtain ⟨w, hw⟩ := lookup_of_mem (List.mem_map.mpr ⟨e, he, of_decide_eq_true hkey⟩)
      rw [hw]
      rfl
    · rfl
  · next hany =>
    rw [List.lookup_append]
    split
    · next heq =>
      have hnone : o.lookup (lit other) = none := by
        refine List.lookup_eq_none_iff.mpr fun e he => bne_iff_ne.mpr fun hkey => hany ?_
        exact List.any_eq_true.mpr ⟨e, he, decide_eq_true (hkey.symm.trans heq)⟩
      rw [hnone, heq]
      simp
    · next hne =>
      have hnone : [(lit key, v)].lookup (lit other) = none := by
        simp [List.lookup_cons, beq_eq_false_iff_ne.mpr hne]
      rw [hnone, Option.or_none]

/-- A filled text is fillable: it holds no brace. -/
private theorem substitute_ok {s out : Str} (hs : Fillable (F := F) (.str s))
    (h : substitute s slots = .ok out) : Fillable (F := F) (.str out) := by
  rcases substitute_cases slots hs with ⟨a, b, ha, hb, heq⟩ | ⟨e, he, -⟩
  · obtain rfl := Except.ok.inj (heq.symm.trans h)
    exact fillable_of_plain (hs.filled ha.plain hb.plain)
  · exact nomatch he.symm.trans h

private theorem only_substitute {s : Str} (hs : Fillable (F := F) (.str s)) :
    Only Raised.IsCommandError (substitute s slots) := by
  rcases substitute_cases slots hs with ⟨a, b, -, -, heq⟩ | ⟨e, he, herror, -⟩
  · rw [heq]
    exact only_ok
  · rw [he]
    exact only_error herror

theorem fillable_str {v : Doc F} (h : Fillable v) : ∃ s, v = .str s := by
  cases v with
  | str s => exact ⟨s, rfl⟩
  | null | bool | int | float | list | obj => cases h

variable {key : String}

private theorem lit_ne (hkey : key ∈ ["solution", "note"]) : lit "update" ≠ lit key := by
  rcases List.mem_pair.mp hkey with rfl | rfl <;> decide

/-- A leaf of a stored playbook stays one as a text of it is filled. -/
theorem fillKey_ok {out out' : Entries F} (hkey : key ∈ ["solution", "note"])
    (h : fillKey slots out key = .ok out') (hleaf : Leaf out) : Leaf out' := by
  unfold fillKey at h
  split at h
  · exact Except.ok.inj h ▸ hleaf
  · next v hv =>
    obtain ⟨t, ht, s, hs, h⟩ := by simpa only [bind_ok] using h
    obtain rfl := Except.ok.inj h
    obtain rfl := asText_ok.mp ht
    have hfill : Fillable (F := F) (.str t) := hleaf.remark key (by simpa [or_comm] using hkey) _ hv
    refine ⟨fun other hother w hw => ?_, fun w hw => ?_⟩
    · rw [Option.mem_def, get_put] at hw
      split at hw
      · obtain rfl := Option.some.inj hw
        exact substitute_ok hfill hs
      · exact hleaf.remark other hother w hw
    · rw [Option.mem_def, get_put, if_neg (lit_ne hkey)] at hw
      exact hleaf.update w hw

theorem only_fillKey {out : Entries F} (hkey : key ∈ ["solution", "note"])
    (hleaf : Leaf out) : Only Raised.IsCommandError (fillKey slots out key) := by
  unfold fillKey
  split
  · exact only_ok
  · next v hv =>
    have hfill := hleaf.remark key (by simpa [or_comm] using hkey) v hv
    obtain ⟨s, rfl⟩ := fillable_str hfill
    exact only_ok.bind fun t ht => (Except.ok.inj ht ▸ only_substitute hfill).bind fun _ _ => only_ok

theorem only_fillUpdate {out : Entries F} (hleaf : Leaf out) :
    Only Raised.IsCommandError (fillUpdate slots out) := by
  unfold fillUpdate
  split
  · exact only_ok
  · next update hupdate =>
    obtain ⟨u, hu, hall⟩ := hleaf.update _ hupdate
    obtain rfl := Doc.obj.inj hu
    refine (Only.each fun e he => ?_).bind fun filled hfilled => (Only.each fun e he => ?_).bind fun _ _ => only_ok
    · obtain ⟨s, hs⟩ := fillable_str (hall e he).1
      have hfill := (hall e he).1
      unfold fillText
      rw [hs] at hfill ⊢
      exact only_ok.bind fun t ht => (Except.ok.inj ht ▸ only_substitute hfill).bind fun _ _ => only_ok
    · obtain ⟨e', he', hmade⟩ := of_mem_right (each_ok.mp hfilled) he
      obtain ⟨t, -, s, -, h⟩ := by simpa only [fillText, bind_ok] using hmade
      obtain rfl := Except.ok.inj h
      obtain ⟨limit, hlimit⟩ := Option.isSome_iff_exists.mp (hall e' he').2
      have hfield : storable e'.1 := by
        obtain ⟨l, r, heq, -⟩ := List.lookup_eq_some_iff.mp hlimit
        have hall : ∀ f ∈ FIELD_LIMITS, storable f.1 := by decide +kernel
        exact hall (e'.1, limit) (heq ▸ by simp)
      rw [within_field, size, asText, ok_bind, ok_bind, hlimit]
      exact only_ensure (refusal (by simp +decide [hfield]))
  · next v hnot hv =>
    obtain ⟨u, rfl, -⟩ := hleaf.update v hv
    exact absurd rfl (hnot u)

theorem fillUpdate_solution {out out' : Entries F} (h : fillUpdate slots out = .ok out') :
    get out' "solution" = get out "solution" := by
  unfold fillUpdate at h
  split at h
  · rw [Except.ok.inj h]
  · obtain ⟨u, -, _, -, h⟩ := by simpa only [bind_ok] using h
    rw [← Except.ok.inj h, get_put, if_neg (by decide)]
  · cases h

/-- A leaf of a stored playbook is filled, or a text of it is refused. -/
theorem only_fill {leaf : Entries F} (h : Leaf leaf) :
    Only Raised.IsCommandError (fill leaf slots) := by
  have hkeys : ["solution", "note"].foldlM (fillKey slots) leaf =
      fillKey slots leaf "solution" >>= fun out => fillKey slots out "note" := by
    rw [List.foldlM_cons]
    congr 1
    funext out
    rw [List.foldlM_cons]
    rcases fillKey slots out "note" with e | r <;> rfl
  unfold fill
  rw [hkeys]
  refine Only.bind ((only_fillKey (by simp) h).bind fun out hout =>
    only_fillKey (by simp) (fillKey_ok (by simp) hout h)) fun out hout => ?_
  obtain ⟨mid, hmid, hout⟩ := bind_ok.mp hout
  have hleaf := fillKey_ok (by simp) hout (fillKey_ok (by simp) hmid h)
  refine (only_fillUpdate hleaf).bind fun out' hout' => Only.bind ?_ fun _ _ =>
    (only_ensure (refusal (by decide +kernel))).bind fun _ _ => only_ok
  rw [fillUpdate_solution hout']
  rcases hsolution : get out "solution" with - | v
  · exact only_ok
  · obtain ⟨s, rfl⟩ := fillable_str (hleaf.remark "solution" (by simp) v hsolution)
    exact only_ok

/-! Acts -/

structure Outcome.Storable (outcome : Outcome) : Prop where
  output : storable outcome.output
  detail : storable outcome.detail
  duration : storable outcome.duration

theorem textItems_ok {l : List (Doc F)} (h : ∀ v ∈ l, isText 200 v) : textItems (.list l) = .ok (texts l) := by
  rw [textItems]
  induction l with
  | nil => rfl
  | cons v l ih =>
    obtain ⟨hv, hl⟩ := List.forall_mem_cons.mp h
    obtain ⟨s, rfl⟩ := isText_str hv
    rw [Checks.each, ih hl]
    rfl

section
variable [Python]

/-- A command that went out is one that the check lets through as it stands, with no placeholder in it. -/
structure Sent.Sound (sent : Sent) : Prop where
  checked : check sent.line sent.access_level = .ok sent.line
  filled : ∀ c ∈ sent.line, ¬ IsBrace c

/-- What an act leaves. -/
structure Acted (r : Outcome × Option Sent) : Prop where
  outcome : r.1.Storable
  sent : ∀ s ∈ r.2, s.Sound

private theorem acted_failed {detail : Str} (h : storable detail) : Acted (failed detail, none) :=
  ⟨⟨rfl, h, rfl⟩, nofun⟩

/-- An SSH step's act, where what stands for its placeholders is a value each. -/
private theorem overSsh_cases {host s a b : Str} {t : Turn} (hhost : storable host) (ht : t.outcome.Storable)
    (hfill : Fillable (F := F) (.str s)) (ha : Value a) (hb : Value b)
    {sent : Str} (hsent : check (filledBy (lit "x") (lit "x") s)
      (lit "root") = .ok sent) :
    (∃ r, overSsh host (filledBy a b s) t = .ok r ∧ Acted r) ∨
      ∃ e, overSsh host (filledBy a b s) t = .error e ∧
        e.IsCommandError := by
  have hplain := hfill.filled ha.plain hb.plain
  generalize hline : filledBy a b s = line at hplain
  unfold overSsh
  rcases hword : firstWord line with - | verb
  · have hwhite := hfill.of_all (x := lit "x") (y := lit "x") ha.plain ha.shown hb.shown (hline ▸ firstWord_none hword)
    obtain ⟨hstrip, hne, -⟩ := check_ok hsent
    exact absurd (hstrip.trans (strip_white hwhite)) hne
  · dsimp only
    rcases t.access_level with - | level
    · refine .inl ⟨_, rfl, acted_failed ?_⟩
      have hleast : storable ((READ_VERBS.lookup (Python.lower verb)).getD (lit "view_only")) := by
        rcases hl : READ_VERBS.lookup (Python.lower verb) with - | least
        · rfl
        · exact storable_least storable_levels.1 hl
      simp +decide [hhost, hleast]
    · unfold ssh
      dsimp only
      rcases hcheck : check line level with e | sent
      · exact .inr ⟨e, rfl, only_check line level e hcheck⟩
      · refine .inl ⟨_, rfl, ht, fun s hs => ?_⟩
        obtain rfl := Option.some.inj hs
        exact ⟨check_sent hcheck, fun c hc => hplain c (mem_strip ((check_ok hcheck).1 ▸ hc))⟩

variable {name : Str}

/-- What is caught of an act is an outcome too. -/
private theorem act_cases {facts : Facts} {t : Turn} {args : Doc F} (hno : facts.host ≠ [])
    (hname : name ≠ lit "reach") (h : (∃ r, attempt facts name args t = .ok r ∧ Acted r) ∨
      ∃ e, attempt facts name args t = .error e ∧ e.IsCommandError) :
    ∃ r, act facts (.obj [(name, args)]) t = .ok r ∧ Acted r := by
  have hact := (if_neg hno).trans (if_neg hname) (a := act facts (.obj [(name, args)]) t)
  rcases h with ⟨r, hr, hacted⟩ | ⟨e, he, herror⟩
  · rw [hr] at hact
    exact ⟨r, hact, hacted⟩
  · rw [he] at hact
    cases e with
    | CommandError message =>
      have hmessage : storable message := herror
      exact ⟨_, hact, acted_failed (by simp +decide [hmessage])⟩
    | PlaybookError | KeyError | IndexError | TypeError | AttributeError | ValueError | StopIteration
      | UnicodeEncodeError | RecursionError | DataError => cases herror

theorem act_ok {facts : Facts} {t : Turn} {work : Doc F} (hwork : Work work) (hhost : storable facts.host)
    (ht : t.outcome.Storable) : ∃ r, act facts work t = .ok r ∧ Acted r := by
  by_cases hno : facts.host = []
  · have hnowhere : Acted (failed (lit "the situation names no element address"), none) :=
      acted_failed (by decide +kernel)
    cases hwork <;> exact ⟨_, if_pos hno, hnowhere⟩
  · cases hwork with
    | reach => exact ⟨(t.outcome, none), (if_neg hno).trans (if_pos rfl), ht, nofun⟩
    | @ssh args s _ hcommand hfill hsent =>
      obtain ⟨sent, hsent⟩ := hsent
      refine act_cases hno (by decide) ?_
      have hattempt : attempt facts (lit "ssh") (.obj args) t =
          substitute s facts.slots >>= fun line => overSsh facts.host line t := by
        rw [attempt, entries, ok_bind, if_pos rfl, item_ok.mpr hcommand, ok_bind, asText, ok_bind]
      rw [hattempt]
      rcases substitute_cases facts.slots hfill with ⟨a, b, ha, hb, hline⟩ | ⟨e, he, herror, -⟩
      · rw [hline]
        exact overSsh_cases hhost ht hfill ha hb hsent
      · rw [he]
        exact .inr ⟨e, rfl, herror⟩
    | @snmp_get args l _ hoids htext _ =>
      refine act_cases hno (by decide) (.inl ?_)
      have hattempt : attempt facts (lit "snmp_get") (.obj args) t =
          if t.access_level.isNone then .ok (failed (lit "no SNMP credential agents may use for " ++ facts.host ++
            lit " at view_only or above"), none)
          else .ok (t.outcome, none) := by
        rw [attempt, entries, ok_bind, if_neg (by decide), item_ok.mpr hoids, ok_bind, textItems_ok htext, ok_bind]
      rw [hattempt]
      split_ifs
      · exact ⟨_, rfl, acted_failed (by simp +decide [hhost])⟩
      · exact ⟨_, rfl, ht, nofun⟩

/-! The feed -/

omit [Python] in
theorem storable_name (h : NAME name) : storable name := by
  refine storable_iff.mpr fun c hc => ?_
  have hcore : ∀ c ∈ chomp name, isLower c ∨ isDigit c ∨ c = chr '_' := by
    unfold NAME at h
    split at h
    · cases h
    · next d r hd =>
      rw [hd]
      simp only [decide_eq_true_eq, List.all_eq_true] at h
      exact List.forall_mem_cons.mpr ⟨.inl h.1, h.2.2⟩
  rcases mem_chomp hc with hc | rfl
  · rcases hcore c hc with h | h | rfl
    · simp only [isLower, decide_eq_true_eq] at h
      exact storable_char (by omega) (by omega)
    · simp only [isDigit, decide_eq_true_eq] at h
      exact storable_char (by omega) (by omega)
    · decide
  · decide

/-- A command of a stored playbook has no NUL: its check would have found it. -/
theorem storable_command {s sent : Str} (hchars : ∀ c ∈ s, ¬ isSurrogate c)
    (h : check (filledBy (lit "x") (lit "x") s) (lit "root") = .ok sent) :
    storable s := by
  refine storable_iff.mpr fun c hc => ⟨?_, hchars c hc⟩
  rintro rfl
  obtain ⟨rfl, -, hplain⟩ := check_ok h
  have hkeep {slot r : Str} (hslot : 0 ∉ token slot) (hr : 0 ∈ r) : 0 ∈ replace (token slot) (lit "x") r :=
    (mem_of_replace (List.cons_ne_nil _ _) hr).resolve_right hslot
  have hprobe := hkeep (by decide : 0 ∉ token (lit "entity")) (hkeep (by decide : 0 ∉ token (lit "ip")) hc)
  rcases mem_strip_or hprobe with hstrip | hwhite
  · refine hplain ?_
    simp only [forbidden, decide_eq_true_eq]
    exact .inl (List.any_eq_true.mpr ⟨0, hstrip, by decide⟩)
  · exact absurd hwhite (by decide)

omit [Python] in
theorem storable_oid {s : Str} (hchars : ∀ c ∈ s, ¬ isSurrogate c) (h : (dotted s).isSome) : storable s := by
  obtain ⟨n, hn⟩ := Option.isSome_iff_exists.mp h
  refine storable_iff.mpr fun c hc => ⟨?_, hchars c hc⟩
  rintro rfl
  rcases dotted_chars hn 0 hc with h | h <;> revert h <;> decide

omit [Python] in
theorem storable_listed {l : List Str} (h : ∀ s ∈ l, storable s) : storable (listed l) := by
  refine storable_iff.mpr fun c hc => ?_
  rcases mem_intercalate hc with hc | ⟨s, hs, hc⟩
  · exact storable_iff.mp (by decide : storable (lit ", ")) c hc
  · exact storable_iff.mp (h s hs) c hc

omit [Python] in
theorem chars_get {P : CodePoint → Prop} {o : Entries F} {v : Doc F} (h : Chars P (.obj o))
    (hv : get o key = some v) : Chars P v :=
  (entriesChars_iff.mp h _ (get_mem hv)).2

/-- What a step of a stored playbook is in the feed. -/
theorem what_ok {args : Doc F} (hwork : Work (.obj [(name, args)]))
    (hchars : Chars (fun c => ¬ isSurrogate c) args) :
    ∃ o table shown, args = .obj o ∧ what o = .ok table ∧ table.lookup name = some shown ∧ storable shown := by
  cases hwork with
  | reach => exact ⟨[], _, lit "reach", rfl, rfl, rfl, by decide⟩
  | @ssh o s hoids hcommand _ hsent =>
    obtain ⟨sent, hsent⟩ := hsent
    have hstorable := storable_command (chars_get hchars hcommand) hsent
    refine ⟨o, [(lit "reach", lit "reach"), (lit "ssh", lit "\x60" ++ s ++ lit "\x60"),
      (lit "snmp_get", lit "SNMP GET ")], lit "\x60" ++ s ++ lit "\x60", rfl, ?_, rfl, by simp +decide [hstorable]⟩
    rw [what, hcommand, hoids]
    rfl
  | @snmp_get o l hcommand hoids htext hdotted =>
    have hitems : ∀ s ∈ texts l, storable s := by
      intro s hs
      obtain ⟨v, hv, heq⟩ := List.mem_filterMap.mp hs
      obtain ⟨t, rfl⟩ := isText_str (htext v hv)
      obtain rfl := Option.some.inj heq
      exact storable_oid (itemsChars_iff.mp (chars_get hchars hoids) _ hv) (hdotted t hs)
    refine ⟨o, [(lit "reach", lit "reach"), (lit "ssh", lit "\x60" ++ [] ++ lit "\x60"),
      (lit "snmp_get", lit "SNMP GET " ++ listed (texts l))], lit "SNMP GET " ++ listed (texts l), rfl, ?_, rfl,
      by simp +decide [storable_listed hitems]⟩
    rw [what, hcommand, hoids, Option.getD_some, textItems_ok htext]
    rfl

/-- The event of a step is one that can be stored. -/
theorem event_ok {step : Str} {work : Doc F} {outcome : Outcome} {host : Str} (hwork : Work work)
    (hchars : Chars (fun c => ¬ isSurrogate c) work) (hstep : storable step) (ho : outcome.Storable)
    (hhost : storable host) : (event_text step work outcome host >>= event) = .ok () := by
  obtain ⟨name, args, rfl⟩ : ∃ name args, work = .obj [(name, args)] := by
    cases hwork <;> exact ⟨_, _, rfl⟩
  have hargs : Chars (fun c => ¬ isSurrogate c) args := hchars.2.1
  obtain ⟨o, table, shown, rfl, hwhat, hlookup, hshown⟩ := what_ok hwork hargs
  obtain ⟨hout, hdetail, hduration⟩ := ho
  have htake {s : Str} (h : storable s) (n : ℕ) : storable (s.take n) :=
    storable_iff.mpr fun c hc => storable_iff.mp h c (List.mem_of_mem_take hc)
  have hstored {body : Str} (h : storable body) : event body = .ok () := if_pos (htake h 8000)
  have hfirst : first (.obj [(name, .obj o)]) = .ok (name, .obj o) := rfl
  simp only [event_text, hfirst, ok_bind, entries, hwhat, hlookup]
  split_ifs <;> rw [ok_bind] <;> refine hstored ?_
  all_goals simp +decide [hstep, hshown, hhost, hdetail, hduration, htake hout]

theorem perform_ok {facts : Facts} {step : Entries F} {t : Turn} (hwork : ∀ v ∈ get step "do", Work v)
    (hchars : Chars (fun c => ¬ isSurrogate c) (.obj step)) (hname : storable name) (hhost : storable facts.host)
    (ht : t.outcome.Storable) : ∃ r, perform facts name step t = .ok r ∧ Acted r := by
  unfold perform
  split
  · exact ⟨_, rfl, ⟨rfl, by decide, rfl⟩, nofun⟩
  · next work hdo =>
    obtain ⟨r, hr, hacted⟩ := act_ok (hwork work hdo) hhost ht
    refine ⟨r, ?_, hacted⟩
    have hevent := event_ok (hwork work hdo) (chars_get hchars hdo) hname hacted.outcome hhost
    obtain ⟨body, hbody, hstored⟩ := bind_ok.mp hevent
    rw [hr, ok_bind]
    dsimp only
    rw [hbody, ok_bind, hstored, ok_bind]

omit [Python] in
theorem traced_ok {outcome : Outcome} (h : outcome.Storable) : ∃ row, traced name outcome = .ok row := by
  refine ⟨_, bind_ok.mpr ⟨(), ensure_ok.mpr fun hany => ?_, rfl⟩⟩
  obtain ⟨c, hc, hs⟩ := List.any_eq_true.mp hany
  exact (storable_iff.mp h.output c hc).2 hs

/-! Tests -/

/-- A test names a slot that has no plain value. -/
def UnplainTest (slots : Slots) (cond : Entries F) : Prop := ∃ key s, get cond key = some (.str s) ∧ Unplain slots s

/-- What a test of a stored playbook raises. -/
def Unreadable (slots : Slots) (cond : Entries F) (e : Raised) : Prop := e.IsCommandError ∧ UnplainTest slots cond

omit [Python] in
theorem only_also {P : Raised → Prop} {a b : Except Raised Bool} (ha : Only P a) (hb : Only P b) :
    Only P (also a b) := by
  refine ha.bind fun r _ => ?_
  split
  · exact hb
  · exact only_ok

omit [Python] in
theorem only_where {P : Raised → Prop} {cond : Entries F} {f : Doc F → Except Raised Bool}
    (h : ∀ v, get cond key = some v → Only P (f v)) : Only P (where_ cond key f) := by
  unfold where_
  split
  · exact only_ok
  · next v hv => exact h v hv

theorem only_phrase {cond : Entries F} {v : Doc F} (hv : get cond key = some v)
    (h : Fillable v) : Only (Unreadable slots cond) (phrase slots v) := by
  cases v with
  | str s =>
    refine Only.bind only_ok fun t ht => Only.bind ?_ fun _ _ => only_ok
    obtain rfl := Except.ok.inj ht
    rcases substitute_cases slots h with ⟨a, b, -, -, hs⟩ | ⟨e, he, herror, hunplain⟩
    · rw [hs]
      exact only_ok
    · rw [he]
      exact only_error ⟨herror, key, s, hv, hunplain⟩
  | null | bool | int | float | list | obj => cases h

section
variable [PyOrder F]

omit [Python] in
theorem only_bound {P : Raised → Prop} {x : F} {v : Doc F} (h : isNumber v) :
    Only P (above x v) ∧ Only P (below x v) := by
  cases v with
  | bool | int | float => exact ⟨only_ok, only_ok⟩
  | null | str | list | obj => cases h

variable [PyFloat F] {outcome : Outcome} {vendor : Option Str} {slots : Slots}

theorem only_test {cond : Entries F} (h : Condition cond) :
    Only (Unreadable slots cond) (test cond outcome vendor slots) := by
  refine only_also (only_where fun _ _ => only_ok) (only_also (only_where fun v hv => ?_) (only_also
    (only_where fun v hv => ?_) (only_also (only_where fun v hv => ?_) (only_where fun v hv => ?_))))
  · exact (only_phrase hv (h.phrase _ (by simp) v hv)).bind fun _ _ => only_ok
  · exact (only_phrase hv (h.phrase _ (by simp) v hv)).bind fun _ _ => only_ok
  · obtain ⟨s, rfl⟩ := isText_str (h.vendor v hv)
    exact only_ok.bind fun _ _ => only_ok
  · refine (only_phrase hv (h.phrase _ (by simp) v hv)).bind fun label _ => ?_
    unfold numbered
    split
    · exact only_ok
    · exact only_also (only_where fun w hw => (only_bound (h.bound _ (by simp) w hw)).1)
        (only_where fun w hw => (only_bound (h.bound _ (by simp) w hw)).2)

/-- A branch whose test cannot be read. -/
def UnreadableBranch (slots : Slots) (b : Doc F) (e : Raised) : Prop :=
  ∃ o cond, b = .obj o ∧ get o "if" = some (.obj cond) ∧ Unreadable slots cond e

theorem only_taken {names : List Str} {b : Doc F}
    {target : Str} (h : Branch names b target) : Only (UnreadableBranch slots b) (taken outcome vendor slots b) := by
  obtain ⟨⟨o, rfl, -, hcond⟩, -⟩ := h
  refine only_where fun v hv => ?_
  obtain ⟨cond, rfl, hcond⟩ := hcond v hv
  exact fun e he => ⟨o, cond, rfl, hv, only_test hcond e he⟩

omit [Python] [PyFloat F] [PyOrder F] in
theorem go_ok {names : List Str} {b : Doc F} {target : Str} (h : Branch names b target) : go b = .ok target := by
  obtain ⟨⟨o, rfl, hgo, -⟩, -⟩ := h
  rw [go, item_ok.mpr hgo]
  rfl

/-- The first branch that is taken, and where it goes. -/
structure Chosen (outcome : Outcome) (vendor : Option Str) (slots : Slots) (bs : List (Doc F)) (r : ℕ × Str) :
    Prop where
  taken : ∃ b, bs[r.1]? = some b ∧ Playbook.taken outcome vendor slots b = .ok true ∧ go b = .ok r.2
  first : ∀ j < r.1, ∀ b, bs[j]? = some b → Playbook.taken outcome vendor slots b = .ok false

theorem choose_ok {bs : List (Doc F)} {r : ℕ × Str}
    (h : choose outcome vendor slots bs = .ok r) : Chosen outcome vendor slots bs r := by
  induction bs generalizing r with
  | nil => cases h
  | cons b bs ih =>
    obtain ⟨yes, htaken, h⟩ := bind_ok.mp h
    cases yes with
    | true =>
      obtain ⟨name, hname, h⟩ := bind_ok.mp h
      obtain rfl := Except.ok.inj h
      exact ⟨⟨b, rfl, htaken, hname⟩, fun j hj => absurd hj (Nat.not_lt_zero j)⟩
    | false =>
      obtain ⟨⟨i, name⟩, hrest, h⟩ := bind_ok.mp h
      obtain rfl := Except.ok.inj h
      obtain ⟨hfound, hfirst⟩ := ih hrest
      refine ⟨hfound, fun j hj c hc => ?_⟩
      cases j with
      | zero => exact Option.some.inj hc ▸ htaken
      | succ j => exact hfirst j (Nat.lt_of_succ_lt_succ hj) c hc

/-- With a branch that has no test, only a test that cannot be read is raised. -/
theorem only_choose {names : List Str} {bs : List (Doc F)}
    (h : ∀ b ∈ bs, ∃ target, Branch names b target) (hdefault : ∃ o, .obj o ∈ bs ∧ get o "if" = none) :
    Only (fun e => ∃ b ∈ bs, UnreadableBranch slots b e) (choose outcome vendor slots bs) := by
  induction bs with
  | nil => exact nomatch hdefault.choose_spec.1
  | cons b bs ih =>
    obtain ⟨⟨target, hb⟩, hbs⟩ := List.forall_mem_cons.mp h
    refine Only.bind (fun e he => ⟨b, List.mem_cons_self, only_taken hb e he⟩) fun yes hyes => ?_
    cases yes with
    | true =>
      rw [if_pos rfl, go_ok hb]
      exact only_ok.bind fun _ _ => only_ok
    | false =>
      rw [if_neg Bool.false_ne_true]
      obtain ⟨o, ho, hnone⟩ := hdefault
      have hrest : ∃ o, .obj o ∈ bs ∧ get o "if" = none := by
        rcases List.mem_cons.mp ho with rfl | ho
        · rw [taken, where_, hnone] at hyes
          cases hyes
        · exact ⟨o, ho, hnone⟩
      refine Only.bind (fun e he => ?_) fun _ _ => only_ok
      obtain ⟨c, hc, hun⟩ := ih hbs hrest e he
      exact ⟨c, List.mem_cons_of_mem b hc, hun⟩

end

end

end NetCoreNoc.Noc.Playbook

import Mathlib
import NetCoreNoc.Noc.Conclusion
import NetCoreNoc.Noc.Vault

/-! The credential a playbook's command is sent under: the level that the command needs
(`engine/noc/commands.py`), the level that the runner asks for (`engine/noc/runbook.py`) and the credential that the
vault finds (`noc_secret_for` of `store/noc_playbooks.py`). -/
namespace NetCoreNoc.Noc

open Json

def AccessLevel.text : AccessLevel → Str
  | .view_only => lit "view_only"
  | .diagnostic => lit "diagnostic"
  | .operator => lit "operator"
  | .root => lit "root"

/-- `CASE access_level WHEN …` -/
def AccessLevel.rank : AccessLevel → ℤ
  | .view_only => 0
  | .diagnostic => 1
  | .operator => 2
  | .root => 3

namespace Playbook

open Text Checks

theorem rank_text (level : AccessLevel) : Playbook.rank level.text = level.rank := by
  cases level <;> decide +kernel

/-! What the vault finds -/

def SSH : List CredentialKind := [.ssh_password, .ssh_key]

def FLOORS : List (Str × ℤ) := [(lit "view_only", 0), (lit "diagnostic", 1), (lit "operator", 2), (lit "root", 3)]

/-- The rows that the query's condition leaves. -/
def usable (host : Str) (kinds : List CredentialKind) (floor : ℤ) (s : Secret) : Bool :=
  lit s.shown.host = host ∧ s.agent_access ∧ s.shown.kind ∈ kinds ∧ floor ≤ s.shown.access_level.rank

/-- The query's order: by level, then by identifier. -/
def Precedes (a b : Secret) : Prop :=
  a.shown.access_level.rank < b.shown.access_level.rank ∨
    a.shown.access_level.rank = b.shown.access_level.rank ∧ a.id ≤ b.id

instance : DecidableRel Precedes := fun _ _ => inferInstanceAs (Decidable (_ ∨ _))

instance : Std.Total Precedes where
  total a b := by
    unfold Precedes
    omega

instance : IsTrans Secret Precedes where
  trans a b c := by
    unfold Precedes
    omega

def noc_secret_for (vault : List Secret) (host : Str) (kinds : List CredentialKind) (least : Str) :
    Except Raised (Option Secret) :=
  match FLOORS.lookup least with
  | none => .error .KeyError
  | some floor => .ok ((vault.filter (usable host kinds floor)).insertionSort Precedes).head?

/-- A credential that may be used is found where there is one, and no other precedes it. -/
theorem noc_secret_for_least {vault : List Secret} {host : Str} {kinds : List CredentialKind} {level : AccessLevel}
    {s : Secret} (hs : s ∈ vault) (huse : usable host kinds level.rank s) :
    ∃ row ∈ vault, noc_secret_for vault host kinds level.text = .ok (some row) ∧ usable host kinds level.rank row ∧
      ∀ other ∈ vault, usable host kinds level.rank other → Precedes row other := by
  have hfloor : FLOORS.lookup level.text = some level.rank := by cases level <;> decide +kernel
  have hsorted := List.pairwise_insertionSort Precedes (vault.filter (usable host kinds level.rank))
  have hmem (other : Secret) : other ∈ (vault.filter (usable host kinds level.rank)).insertionSort Precedes ↔
      other ∈ vault ∧ usable host kinds level.rank other := by
    rw [List.mem_insertionSort, List.mem_filter]
  have heq : noc_secret_for vault host kinds level.text =
      .ok ((vault.filter (usable host kinds level.rank)).insertionSort Precedes).head? := by
    rw [noc_secret_for, hfloor]
  rw [heq]
  rcases hlist : (vault.filter (usable host kinds level.rank)).insertionSort Precedes with - | ⟨row, rest⟩
  · exact absurd ((hmem s).mpr ⟨hs, huse⟩) (hlist ▸ List.not_mem_nil)
  · rw [hlist] at hsorted hmem
    obtain ⟨hin, hrow⟩ := (hmem row).mp List.mem_cons_self
    refine ⟨row, hin, rfl, hrow, fun other hother huse => ?_⟩
    rcases List.mem_cons.mp ((hmem other).mpr ⟨hother, huse⟩) with rfl | hrest
    · exact Std.Refl.refl other
    · exact List.rel_of_pairwise_cons hsorted hrest

private theorem usable_floor {host : Str} {kinds : List CredentialKind} {level : AccessLevel} {s : Secret} :
    usable host kinds level.rank s ↔ usable host kinds 0 s ∧ level.rank ≤ s.shown.access_level.rank := by
  have hpos : 0 ≤ s.shown.access_level.rank := by cases s.shown.access_level <;> decide
  simp only [usable, decide_eq_true_eq]
  constructor
  · rintro ⟨hhost, hagents, hkind, hlevel⟩
    exact ⟨⟨hhost, hagents, hkind, hpos⟩, hlevel⟩
  · rintro ⟨⟨hhost, hagents, hkind, -⟩, hlevel⟩
    exact ⟨hhost, hagents, hkind, hlevel⟩

/-! The level that a command needs -/

private theorem takeWhile_white (l : Str) :
    (l.rdropWhile isWhite).takeWhile (fun c => !isWhite c) = l.takeWhile fun c => !isWhite c := by
  conv_rhs => rw [← List.rdropWhile_append_rtakeWhile (p := isWhite) (l := l), List.takeWhile_append]
  split
  · next hall =>
    have hrest : (l.rtakeWhile isWhite).takeWhile (fun c => !isWhite c) = [] := by
      rw [List.takeWhile_eq_nil_iff]
      intro hpos
      have := List.mem_rtakeWhile_imp (List.getElem_mem hpos)
      simpa using this
    rw [hrest, List.append_nil]
    exact List.IsPrefix.eq_of_length (List.takeWhile_prefix _) hall
  · rfl

theorem firstWord_strip (s : Str) : firstWord (strip s) = firstWord s := by
  unfold firstWord strip
  rcases hdrop : s.dropWhile isWhite with - | ⟨c, r⟩
  · rfl
  · have hc : ¬ isWhite c := by
      simpa [hdrop] using List.dropWhile_get_zero_not isWhite s (by rw [hdrop]; exact Nat.succ_pos _)
    have hword := takeWhile_white (c :: r)
    have hstart : (c :: r).rdropWhile isWhite <+: c :: r := List.rdropWhile_prefix isWhite _
    rcases hkept : (c :: r).rdropWhile isWhite with - | ⟨d, t⟩
    · exact absurd (List.rdropWhile_eq_nil_iff.mp hkept c List.mem_cons_self) hc
    · rw [hkept] at hword hstart
      obtain ⟨rfl, -⟩ := List.cons_prefix_cons.mp hstart
      rw [List.dropWhile_cons_of_neg hc]
      exact congrArg some hword

section
variable [Python]

/-- The command of a RouterOS line: the first word that may be one, and the level that it needs. -/
def rosVerb (line : Str) : Option (Str × Str) :=
  ((words line).map Python.lower).findSome? fun w => (ROS_READS.lookup w).map fun least => (w, least)

/-- What `check` asks of a command before it asks for a level: the word that needs one, and the level. -/
def grammar (command : Str) : Except Raised (Str × Str) := do
  let line := strip command
  ensure (line ≠ []) (.CommandError (lit "command: empty"))
  ensure (line.length ≤ MAX_COMMAND)
    (.CommandError (lit "command: at most " ++ natText MAX_COMMAND ++ lit " characters"))
  ensure (¬ forbidden line)
    (.CommandError (lit "command: one line, with no ; | & > < \x60 \\ $( or control character"))
  if line.head? = some (chr '/') then
    ensure (¬ rosForbidden line)
      (.CommandError (lit "command: RouterOS — no [ ] \x7b \x7d: they run a nested command"))
    let words := (words line).map Python.lower
    noWrites ((words.flatMap fun w => w :: w.splitOn (chr '-')).filter (· ∈ WRITES ++ ROS_WRITES))
    match rosVerb line with
    | none =>
      .error (.CommandError (lit "command: RouterOS, read-only — a menu path then print, monitor … once, or ping"))
    | some (verb, least) =>
      ensure (verb = lit "monitor" → lit "once" ∈ words)
        (.CommandError (lit "command: RouterOS, read-only — a menu path then print, monitor … once, or ping"))
      .ok (verb, least)
  else
    match firstWord line with
    | none => .error .IndexError
    | some first =>
      match READ_VERBS.lookup (Python.lower first) with
      | none => .error (.CommandError (lit "command: read-only — it must begin with one of " ++
          listed (ordered (READ_VERBS.map Prod.fst))))
      | some least =>
        noWrites (((words line).map Python.lower).tail.filter (· ∈ WRITES))
        .ok (Python.lower first, least)

/-- The level comes last. -/
theorem check_eq (command access_level : Str) :
    check command access_level = grammar command >>= fun need => needs need.1 need.2 access_level >>= fun _ =>
      .ok (strip command) := by
  unfold check grammar routeros rosVerb
  simp only [bind_assoc]
  congr 1; funext _
  congr 1; funext _
  congr 1; funext _
  split
  · simp only [bind_assoc]
    congr 1; funext _
    congr 1; funext _
    generalize ((words (strip command)).map Python.lower).findSome? _ = found
    rcases found with - | ⟨verb, least⟩
    · rfl
    · simp only [bind_assoc]
      rfl
  · generalize firstWord (strip command) = word
    rcases word with - | first
    · rfl
    · dsimp only
      generalize READ_VERBS.lookup (Python.lower first) = found
      rcases found with - | least
      · rfl
      · simp only [bind_assoc]
        rfl

theorem check_ok_iff {command access_level sent : Str} : check command access_level = .ok sent ↔
    ∃ verb least, grammar command = .ok (verb, least) ∧ rank least ≤ rank access_level ∧ sent = strip command := by
  simp only [check_eq, bind_ok, needs, ensure_ok, exists_const, Prod.exists, Except.ok.injEq, eq_comm (a := sent)]

end

/-- Texts in small letters: what is no letter stays as it is. -/
class Cased extends Python where
  lower_slash : ∀ s, lower (chr '/' :: s) = chr '/' :: lower s

section
variable [Cased]

/-- The level that `_act` asks the vault for. -/
def asked (line : Str) : Str :=
  ((firstWord line).bind fun verb => READ_VERBS.lookup (Python.lower verb)).getD (lit "view_only")

/-- What `_act` does with a command whose slots are filled. -/
def act_ssh (vault : List Secret) (host line : Str) (t : Turn) : Except Raised (Outcome × Option Sent) :=
  match (do
      let found ← noc_secret_for vault host SSH (asked line)
      overSsh host line { t with access_level := found.map fun row : Secret => row.shown.access_level.text }) with
  | .error (.CommandError message) => .ok (failed (lit "refused: " ++ message), none)
  | r => r

/-- A RouterOS line whose command is `ping`. -/
def RosPing (line : Str) : Prop :=
  (strip line).head? = some (chr '/') ∧ (rosVerb (strip line)).map Prod.fst = some (lit "ping")

/-- Of a line that starts with a slash, the least level is asked for. -/
theorem asked_slash {line : Str} (h : (strip line).head? = some (chr '/')) : asked line = lit "view_only" := by
  have hword : ∃ w, firstWord line = some (chr '/' :: w) := by
    obtain ⟨r, hr⟩ := List.head?_eq_some_iff.mp h
    rw [← firstWord_strip, hr]
    exact ⟨_, rfl⟩
  obtain ⟨w, hw⟩ := hword
  have hnone : READ_VERBS.lookup (chr '/' :: Python.lower w) = none := by
    refine List.lookup_eq_none_iff.mpr fun e he => bne_iff_ne.mpr fun heq => ?_
    have hplain : ∀ e ∈ READ_VERBS, e.1.head? ≠ some (chr '/') := by decide +kernel
    exact hplain e he (heq ▸ rfl)
  rw [asked, hw, Option.bind_some, Cased.lower_slash, hnone]
  rfl

theorem asked_level (line : Str) : ∃ level : AccessLevel, asked line = level.text := by
  have htable : ∀ e ∈ READ_VERBS, e.2 = AccessLevel.view_only.text ∨ e.2 = AccessLevel.diagnostic.text := by
    decide +kernel
  rcases hfound : (firstWord line).bind fun verb => READ_VERBS.lookup (Python.lower verb) with - | least
  · exact ⟨.view_only, by rw [asked, hfound]; rfl⟩
  · obtain ⟨verb, -, hverb⟩ := Option.bind_eq_some_iff.mp hfound
    obtain ⟨l, r, heq, -⟩ := List.lookup_eq_some_iff.mp hverb
    have hasked : asked line = least := by
      rw [asked, hfound]
      rfl
    rcases htable (Python.lower verb, least) (heq ▸ by simp) with h | h
    · exact ⟨.view_only, hasked.trans h⟩
    · exact ⟨.diagnostic, hasked.trans h⟩

private theorem rosVerb_least {line verb least : Str} (h : rosVerb line = some (verb, least)) :
    verb = lit "ping" ∧ least = lit "diagnostic" ∨ verb ≠ lit "ping" ∧ least = lit "view_only" := by
  have htable : ∀ e ∈ ROS_READS,
      e.1 = lit "ping" ∧ e.2 = lit "diagnostic" ∨ e.1 ≠ lit "ping" ∧ e.2 = lit "view_only" := by decide +kernel
  obtain ⟨w, -, hw⟩ := List.exists_of_findSome?_eq_some h
  obtain ⟨level, hlevel, heq⟩ := Option.map_eq_some_iff.mp hw
  obtain ⟨rfl, rfl⟩ := Prod.mk.inj heq
  obtain ⟨l, r, heq, -⟩ := List.lookup_eq_some_iff.mp hlevel
  exact htable (w, level) (heq ▸ by simp)

/-- What the check needs is what is asked for, but for the `ping` of RouterOS. -/
theorem grammar_least {line verb least : Str} (h : grammar line = .ok (verb, least)) :
    RosPing line ∧ least = lit "diagnostic" ∧ asked line = lit "view_only" ∨ ¬ RosPing line ∧ least = asked line := by
  simp only [grammar, bind_ok, ensure_ok] at h
  obtain ⟨-, -, -, -, -, -, h⟩ := h
  split at h
  · next hslash =>
    simp only [bind_ok] at h
    obtain ⟨-, -, -, -, h⟩ := h
    rcases hverb : rosVerb (strip line) with - | ⟨verb', least'⟩
    · rw [hverb] at h
      cases h
    · rw [hverb] at h
      simp only [bind_ok] at h
      obtain ⟨-, -, h⟩ := h
      obtain ⟨rfl, rfl⟩ := Prod.mk.inj (Except.ok.inj h)
      rcases rosVerb_least hverb with ⟨hping, hleast⟩ | ⟨hping, hleast⟩
      · exact .inl ⟨⟨hslash, by rw [hverb, Option.map_some, hping]⟩, hleast, asked_slash hslash⟩
      · refine .inr ⟨fun hros => hping ?_, hleast.trans (asked_slash hslash).symm⟩
        have hsome := hros.2
        rw [hverb] at hsome
        exact Option.some.inj hsome
  · next hslash =>
    refine .inr ⟨fun hros => hslash hros.1, ?_⟩
    rw [asked, ← firstWord_strip]
    split at h
    · cases h
    · next word hword =>
      split at h
      · cases h
      · next level hlevel =>
        simp only [bind_ok] at h
        obtain ⟨-, -, h⟩ := h
        obtain ⟨rfl, rfl⟩ := Prod.mk.inj (Except.ok.inj h)
        rw [hword, Option.bind_some, hlevel]
        rfl

/-- The level asked for is the least that the check accepts, and a command goes out where a credential suffices, under
the first of those that do. -/
structure Suffices (line : Str) : Prop where
  accepted : ∃ sent, check line (asked line) = .ok sent
  least : ∀ level sent, check line level = .ok sent → rank (asked line) ≤ rank level
  goes : ∀ vault host t, ∀ s ∈ vault, usable host SSH 0 s →
    (∃ sent, check line s.shown.access_level.text = .ok sent) →
    ∃ row ∈ vault, usable host SSH 0 row ∧
      (∀ other ∈ vault, usable host SSH 0 other → (∃ sent, check line other.shown.access_level.text = .ok sent) →
        Precedes row other) ∧
      act_ssh vault host line t = .ok (t.outcome, some ⟨strip line, row.shown.access_level.text⟩)

/-- A command whose level is the one asked for goes out under the credential found. -/
private theorem act_ssh_goes {vault : List Secret} {host line verb : Str} (t : Turn)
    (hneed : grammar line = .ok (verb, asked line)) {s : Secret} (hs : s ∈ vault) (huse : usable host SSH 0 s)
    (hrank : rank (asked line) ≤ s.shown.access_level.rank) :
    ∃ row ∈ vault, usable host SSH 0 row ∧
      (∀ other ∈ vault, usable host SSH 0 other → rank (asked line) ≤ other.shown.access_level.rank →
        Precedes row other) ∧
      act_ssh vault host line t = .ok (t.outcome, some ⟨strip line, row.shown.access_level.text⟩) := by
  obtain ⟨level, hlevel⟩ := asked_level line
  rw [hlevel, rank_text] at hrank ⊢
  obtain ⟨row, hrow, hfound, hused, hfirst⟩ := noc_secret_for_least hs (usable_floor.mpr ⟨huse, hrank⟩)
  obtain ⟨hbasic, hsuffices⟩ := usable_floor.mp hused
  refine ⟨row, hrow, hbasic, ?_, ?_⟩
  · exact fun other hother huse hrank => hfirst other hother (usable_floor.mpr ⟨huse, hrank⟩)
  · have hok : check line row.shown.access_level.text = .ok (strip line) :=
      check_ok_iff.mpr ⟨verb, asked line, hneed, by rwa [hlevel, rank_text, rank_text], rfl⟩
    obtain ⟨word, hword⟩ := Option.isSome_iff_exists.mp (firstWord_isSome (check_ok hok).2.1)
    have hover : overSsh host line { t with access_level := some row.shown.access_level.text } =
        .ok (t.outcome, some ⟨strip line, row.shown.access_level.text⟩) := by
      simp only [overSsh, hword, ssh, hok, ok_bind]
    rw [act_ssh, hlevel, hfound, ok_bind, Option.map_some, hover]

theorem asked_suffices_iff (line : Str) :
    (∀ low high sent, rank low ≤ rank high → check line low = .ok sent → check line high = .ok sent) ∧
      ((∃ level sent, check line level = .ok sent) → (Suffices line ↔ ¬ RosPing line)) := by
  constructor
  · intro low high sent hle hlow
    obtain ⟨verb, least, hneed, hrank, rfl⟩ := check_ok_iff.mp hlow
    exact check_ok_iff.mpr ⟨verb, least, hneed, hrank.trans hle, rfl⟩
  · rintro ⟨level, sent, hok⟩
    obtain ⟨verb, least, hneed, -, -⟩ := check_ok_iff.mp hok
    have haccepts (level : Str) : (∃ sent, check line level = .ok sent) ↔ rank least ≤ rank level := by
      simp [check_ok_iff, hneed]
    rcases grammar_least hneed with ⟨hros, rfl, hasked⟩ | ⟨hros, rfl⟩
    · refine iff_of_false (fun h => ?_) (not_not.mpr hros)
      have hrank := (haccepts _).mp h.accepted
      rw [hasked] at hrank
      exact absurd hrank (by decide +kernel)
    · refine iff_of_true ⟨(haccepts _).mpr le_rfl, fun level sent h => (haccepts level).mp ⟨sent, h⟩, ?_⟩ hros
      simp only [haccepts, rank_text]
      exact fun vault host t s hs huse hrank => act_ssh_goes t hneed hs huse hrank

end

@[reducible] def smallAscii : Cased where
  toPython := ascii
  lower_slash _ := rfl

def credential (id : ℕ) (level : AccessLevel) : Secret where
  id := id
  ref := "ref"
  shown := { name := "router", kind := .ssh_password, access_level := level, host := "10.0.0.1", port := 22 }
  sealed := ⟨⟨"ref", .ssh_password, "10.0.0.1", 22, "", level⟩, []⟩
  agent_access := true

/-- Of two credentials, a `show` goes out under the one that may only look. -/
theorem show_suffices : @Suffices smallAscii (lit "show interfaces") := by
  refine ((@asked_suffices_iff smallAscii (lit "show interfaces")).2
    ⟨lit "root", lit "show interfaces", by decide +kernel⟩).mpr ?_
  rintro ⟨hslash, -⟩
  exact absurd hslash (by decide +kernel)

def attempted : Turn := ⟨1, true, none, ⟨true, lit "sent=3 received=3", lit "ran", lit "3"⟩⟩

/-- A credential that may test is there, and the runner asks for one that may look. -/
theorem ping_refused : @check ascii (lit "/ping 10.0.0.2 count=3") (lit "diagnostic") =
      .ok (lit "/ping 10.0.0.2 count=3") ∧
    @asked smallAscii (lit "/ping 10.0.0.2 count=3") = lit "view_only" ∧
    @act_ssh smallAscii [credential 1 .view_only, credential 2 .diagnostic] (lit "10.0.0.1")
        (lit "/ping 10.0.0.2 count=3") attempted =
      .ok (failed (lit "refused: command: 'ping' needs the diagnostic access level or above"), none) ∧
    ¬ @Suffices smallAscii (lit "/ping 10.0.0.2 count=3") := by
  have hasked : @asked smallAscii (lit "/ping 10.0.0.2 count=3") = lit "view_only" := by decide +kernel
  refine ⟨by decide +kernel, hasked, by rfl, fun h => ?_⟩
  obtain ⟨sent, hsent⟩ := @Suffices.accepted smallAscii _ h
  rw [hasked] at hsent
  have hrefused : (@check ascii (lit "/ping 10.0.0.2 count=3") (lit "view_only")).isOk = false := by decide +kernel
  rw [hsent] at hrefused
  cases hrefused

end Playbook

end NetCoreNoc.Noc

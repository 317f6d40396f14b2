import Mathlib
import NetCoreNoc.Checks
import NetCoreNoc.Json.Canonical
import NetCoreNoc.Text

/-! The commands that may be sent to a device (`engine/noc/commands.py`): one line, and read-only. -/
namespace NetCoreNoc.Noc.Playbook

open Json Text Checks

/-- A text column of the database holds no NUL, and its text is UTF-8. -/
def storable (s : Str) : Bool := s.all fun c => c ≠ 0 ∧ !isSurrogate c

/-- What depends on the Python: its letters, and how deep its `json` writes. `repr` escapes what does not print. -/
class Python where
  lower : Str → Str
  repr : Str → Str
  depth : ℕ
  storable_repr : ∀ s, storable (repr s)

inductive Raised where
  | PlaybookError (message : Str)
  | CommandError (message : Str)
  | KeyError
  | IndexError
  | TypeError
  | AttributeError
  | ValueError
  | StopIteration
  | UnicodeEncodeError
  | RecursionError
  /-- A text that no column holds. -/
  | DataError
  deriving DecidableEq, Repr

/-- A refusal, in a text that can be stored. -/
def Raised.IsCommandError : Raised → Prop
  | .CommandError message => storable message
  | _ => False

def ordered (l : List Str) : List Str := l.insertionSort (· ≤ ·)

/-- A text of the list is an error, that names the first in their order. -/
def noneOf (l : List Str) (e : Str → Raised) : Except Raised Unit :=
  match (ordered l).head? with
  | none => .ok ()
  | some k => .error (e k)

@[simp] theorem noneOf_ok {l : List Str} {e : Str → Raised} {u : Unit} : noneOf l e = .ok u ↔ l = [] := by
  unfold noneOf
  split
  · next h =>
    rw [List.head?_eq_none_iff] at h
    refine iff_of_true rfl (List.eq_nil_of_length_eq_zero ?_)
    rw [← List.length_insertionSort (· ≤ ·) l]
    exact congrArg List.length h
  · next k h =>
    refine iff_of_false nofun ?_
    rintro rfl
    cases h

theorem only_noneOf {P : Raised → Prop} {l : List Str} {e : Str → Raised} (h : ∀ k, P (e k)) :
    Only P (noneOf l e) := by
  unfold noneOf
  split
  · exact only_ok
  · exact only_error (h _)

@[simp] theorem storable_append (s t : Str) : storable (s ++ t) = (storable s && storable t) := List.all_append

@[simp] theorem storable_cons (c : CodePoint) (s : Str) :
    storable (c :: s) = (decide (c ≠ 0 ∧ !isSurrogate c) && storable s) := rfl

theorem storable_iff {s : Str} : storable s ↔ ∀ c ∈ s, c ≠ 0 ∧ ¬ isSurrogate c := by
  simp [storable]

theorem storable_char {c : CodePoint} (h0 : c.val ≠ 0) (h : c.val < 0xd800) : c ≠ 0 ∧ ¬ isSurrogate c := by
  refine ⟨fun hc => h0 (hc ▸ rfl), ?_⟩
  simp only [isSurrogate, isHigh, isLow, decide_eq_true_eq]
  omega

@[simp] theorem storable_natText (n : ℕ) : storable (natText n) = true := by
  have hdigit {c : CodePoint} (h : isDigit c) : c ≠ 0 ∧ ¬ isSurrogate c := by
    simp only [isDigit, decide_eq_true_eq] at h
    exact storable_char (by omega) (by omega)
  rcases natText_cases n with ⟨-, h⟩ | ⟨c, r, h, hc, -, hr⟩
  · rw [h]
    rfl
  · rw [h]
    exact storable_iff.mpr (List.forall_mem_cons.mpr ⟨hdigit hc, fun d hd => hdigit (hr d hd)⟩)

attribute [simp] Python.storable_repr

/-- `", ".join` -/
def listed (l : List Str) : Str := (lit ", ").intercalate l

def MAX_COMMAND : ℕ := 512

def READ_VERBS : List (Str × Str) :=
  [(lit "show", lit "view_only"), (lit "display", lit "view_only"), (lit "dis", lit "view_only"),
    (lit "get", lit "view_only"), (lit "ping", lit "diagnostic"), (lit "traceroute", lit "diagnostic"),
    (lit "tracert", lit "diagnostic")]

def RANK : List (Str × ℤ) := [(lit "view_only", 0), (lit "diagnostic", 1), (lit "operator", 2), (lit "root", 3)]

def rank (level : Str) : ℤ := (RANK.lookup level).getD (-1)

def WRITES : List Str :=
  ["configure", "config-mode", "conf", "commit", "rollback", "reload", "reboot", "restart", "shutdown", "delete",
    "del", "erase", "format", "write", "wr", "copy", "move", "rename", "clear", "reset", "set", "unset", "undo", "save",
    "request", "debug", "undebug", "system-view", "sys", "enable", "su", "sudo", "kill", "rm", "mkdir", "install",
    "upgrade", "load", "merge", "replace", "activate", "deactivate", "redirect", "tee", "exec", "bash", "sh", "shell",
    "start", "telnet", "ssh", "scp", "sftp", "ftp", "tftp", "curl", "wget"].map lit

/-- RouterOS's own acts. -/
def ROS_WRITES : List Str :=
  ["add", "remove", "edit", "comment", "disable", "export", "import", "run", "execute", "file", "fetch", "download",
    "send", "upload", "password", "bandwidth-test", "flood-ping", "make-supout"].map lit

def ROS_READS : List (Str × Str) :=
  [(lit "print", lit "view_only"), (lit "monitor", lit "view_only"), (lit "ping", lit "diagnostic")]

/-- A character of `[;|&><\x60\\\x00-\x1f\x7f]`. -/
def isForbidden (c : CodePoint) : Bool := c.val < 0x20 ∨ c.val = 0x7f ∨ c ∈ lit ";|&><\x60\\"

/-- `_FORBIDDEN_CHARS` finds something. -/
def forbidden (line : Str) : Bool := line.any isForbidden ∨ lit "$(" <:+: line

/-- `_ROS_FORBIDDEN` finds something. -/
def rosForbidden (line : Str) : Bool := line.any fun c => c ∈ lit "[]\x7b\x7d"

/-- A level that a table holds can be stored. -/
theorem storable_least {table : List (Str × Str)} (h : ∀ e ∈ table, storable e.2) {verb least : Str}
    (hverb : table.lookup verb = some least) : storable least := by
  obtain ⟨l, r, heq, -⟩ := List.lookup_eq_some_iff.mp hverb
  exact h (verb, least) (heq ▸ by simp)

theorem storable_levels : (∀ e ∈ READ_VERBS, storable e.2) ∧ ∀ e ∈ ROS_READS, storable e.2 := by decide +kernel

theorem refusal {message : Str} (h : storable message = true) : (Raised.CommandError message).IsCommandError := h

variable [Python]

def noWrites (writes : List Str) : Except Raised Unit :=
  noneOf writes fun w => .CommandError (lit "command: read-only — " ++ Python.repr w ++ lit " writes or escalates")

def needs (verb least access_level : Str) : Except Raised Unit :=
  ensure (rank least ≤ rank access_level)
    (.CommandError (lit "command: " ++ Python.repr verb ++ lit " needs the " ++ least ++ lit " access level or above"))

/-- `_routeros` -/
def routeros (line access_level : Str) : Except Raised Str := do
  ensure (¬ rosForbidden line)
    (.CommandError (lit "command: RouterOS — no [ ] \x7b \x7d: they run a nested command"))
  let words := (words line).map Python.lower
  let parts := words.flatMap fun w => w :: w.splitOn (chr '-')
  noWrites (parts.filter (· ∈ WRITES ++ ROS_WRITES))
  match words.findSome? fun w => (ROS_READS.lookup w).map fun least => (w, least) with
  | none =>
    .error (.CommandError (lit "command: RouterOS, read-only — a menu path then print, monitor … once, or ping"))
  | some (verb, least) =>
    ensure (verb = lit "monitor" → lit "once" ∈ words)
      (.CommandError (lit "command: RouterOS, read-only — a menu path then print, monitor … once, or ping"))
    needs verb least access_level
    .ok line

def check (command access_level : Str) : Except Raised Str := do
  let line := strip command
  ensure (line ≠ []) (.CommandError (lit "command: empty"))
  ensure (line.length ≤ MAX_COMMAND)
    (.CommandError (lit "command: at most " ++ natText MAX_COMMAND ++ lit " characters"))
  ensure (¬ forbidden line)
    (.CommandError (lit "command: one line, with no ; | & > < \x60 \\ $( or control character"))
  if line.head? = some (chr '/') then routeros line access_level
  else
    let words := (words line).map Python.lower
    match firstWord line with
    | none => .error .IndexError
    | some first =>
      match READ_VERBS.lookup (Python.lower first) with
      | none => .error (.CommandError (lit "command: read-only — it must begin with one of " ++
          listed (ordered (READ_VERBS.map Prod.fst))))
      | some least =>
        noWrites (words.tail.filter (· ∈ WRITES))
        needs (Python.lower first) least access_level
        .ok line

theorem only_needs {verb least access_level : Str} (h : storable least) :
    Only Raised.IsCommandError (needs verb least access_level) :=
  only_ensure (by simp +decide [Raised.IsCommandError, h])

theorem only_noWrites (writes : List Str) : Only Raised.IsCommandError (noWrites writes) :=
  only_noneOf fun w => by simp +decide [Raised.IsCommandError]

theorem only_routeros (line access_level : Str) : Only Raised.IsCommandError (routeros line access_level) := by
  refine (only_ensure (refusal (by decide +kernel))).bind fun _ _ => (only_noWrites _).bind fun _ _ => ?_
  split
  · exact only_error (refusal (by decide +kernel))
  · next verb least hfound =>
    obtain ⟨w, -, hw⟩ := List.exists_of_findSome?_eq_some hfound
    obtain ⟨level, hlevel, heq⟩ := Option.map_eq_some_iff.mp hw
    obtain ⟨rfl, rfl⟩ := Prod.mk.inj heq
    exact (only_ensure (refusal (by decide +kernel))).bind fun _ _ =>
      (only_needs (storable_least storable_levels.2 hlevel)).bind fun _ _ => only_ok

/-- A command is refused, or is sent: its check raises nothing else. -/
theorem only_check (command access_level : Str) : Only Raised.IsCommandError (check command access_level) := by
  refine (only_ensure (refusal (by decide +kernel))).bind fun _ hne =>
    (only_ensure (refusal (by decide +kernel))).bind fun _ _ =>
      (only_ensure (refusal (by decide +kernel))).bind fun _ _ => ?_
  split
  · exact only_routeros _ _
  · dsimp only
    split
    · next hnone =>
      have hsome := firstWord_isSome (s := strip command) (by rw [strip_strip]; exact ensure_ok.mp hne)
      rw [hnone] at hsome
      cases hsome
    · split
      · exact only_error (refusal (by decide +kernel))
      · next first _ least hleast =>
        exact (only_noWrites _).bind fun _ _ => (only_needs (storable_least storable_levels.1 hleast)).bind fun _ _ =>
          only_ok

theorem routeros_ok {line access_level sent : Str} (h : routeros line access_level = .ok sent) : sent = line := by
  simp only [routeros, bind_ok] at h
  obtain ⟨-, -, -, -, h⟩ := h
  split at h
  · cases h
  · simp only [bind_ok] at h
    obtain ⟨-, -, -, -, h⟩ := h
    exact (Except.ok.inj h).symm

/-- What is sent is the command stripped, without a control character. -/
theorem check_ok {command access_level sent : Str} (h : check command access_level = .ok sent) :
    sent = strip command ∧ sent ≠ [] ∧ ¬ forbidden sent := by
  simp only [check, bind_ok, ensure_ok] at h
  obtain ⟨-, hne, -, -, -, hplain, h⟩ := h
  have hsent : sent = strip command := by
    split at h
    · exact routeros_ok h
    · split at h
      · cases h
      · split at h
        · cases h
        · simp only [bind_ok] at h
          obtain ⟨-, -, -, -, h⟩ := h
          exact (Except.ok.inj h).symm
  subst hsent
  exact ⟨rfl, hne, hplain⟩

theorem check_strip (command access_level : Str) :
    check (strip command) access_level = check command access_level := by
  simp only [check, strip_strip]

/-- What was sent passes the check as it is. -/
theorem check_sent {command access_level sent : Str} (h : check command access_level = .ok sent) :
    check sent access_level = .ok sent := by
  rw [(check_ok h).1, check_strip, h, (check_ok h).1]

end NetCoreNoc.Noc.Playbook

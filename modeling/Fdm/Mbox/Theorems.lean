import Fdm.Mbox.Invariant

/-!
# What is left of an mbox after a fetch

* `rewritten_when`: a fetch that ends well leaves the kept mails in the mbox exactly when
  all of its mails were kept, or none;
* `second_mail_lost`: the smallest mbox for which it does not.
-/

namespace Fdm.Mbox

open Fdm.Fetch Lib.Lines

/-- The promise for the `i`-th mbox, when `l` is over. -/
def KeepsMails (l : Loop Env State FetchMboxMail) (i : ℕ) (old : List Char)
    (path : List Char) : Prop :=
  ∃ new, l.data.files path = some new ∧
    Rewritten old new (ofMbox i l.data.hist.kept) (ofMbox i l.data.hist.dropped)

/-- When a fetch has ended well, each mail of an mbox was either kept or dropped, and the file
holds the kept ones exactly when all mails were kept, or all dropped. -/
theorem rewritten_when {conf : Conf} {poll : Bool} {paths : List (List Char)}
    {files : List Char → Option (List Char)} {l : Loop Env State FetchMboxMail} {i : ℕ}
    {path : List Char}
    (h : Lib.Runs.Reach (step (fetcher conf) conf) Lib.Runs.anyStep
      (begin conf poll paths files) l)
    (hover : l.ended = true) (haborted : l.aborted = false)
    (hpath : paths[i]? = some path) (honce : ∀ j, paths[j]? = some path → j = i) :
    ∃ old, files path = some old ∧
      (ofMbox i l.data.hist.kept ++ ofMbox i l.data.hist.dropped).Perm
        ((mails old i 0).map Prod.fst) ∧
      (KeepsMails l i old path ↔
        ofMbox i l.data.hist.dropped = [] ∨ ofMbox i l.data.hist.kept = []) := by
  have hcomplete : l.complete = true := by
    rw [Loop.ended, haborted, Bool.false_or, Bool.and_eq_true] at hover
    exact hover.1
  have hinv : (inv conf paths files).Holds l :=
    LoopInv.holds_reach_any (sound_begin paths files) h
  rw [LoopInv.Holds, haborted, hcomplete, if_neg Bool.false_ne_true, if_pos rfl] at hinv
  obtain ⟨old, hold, hnew, hperm⟩ := hinv.2 i path hpath honce
  refine ⟨old, hold, hperm, ?_⟩
  rw [← rewritten_iff hperm]
  constructor
  · rintro ⟨new, hfile, hrewritten⟩
    rw [hnew, Option.some_inj] at hfile
    rwa [hfile]
  · intro hrewritten
    exact ⟨_, hnew, hrewritten⟩

/-! ## Two mails -/

/-- An mbox with two mails. -/
def twoMails : List Char :=
  ['F', 'r', 'o', 'm', ' ', 'a', '\n', 'x', '\n', '\n',
    'F', 'r', 'o', 'm', ' ', 'b', '\n', 'y', '\n']

/-- The only file there is. -/
def sampleFiles (path : List Char) : Option (List Char) :=
  if path = ['m'] then some twoMails else none

def sampleBegin : Loop Env State FetchMboxMail := begin {} false [['m']] sampleFiles

/-- Fetch both mails, and commit them. -/
def fetchBoth (first second : Decision) : List (Act Input) :=
  [.pass, .pass, .pass, .pass, .dequeue 0 first, .dequeue 0 second, .pass, .pass, .pass]

theorem dropBoth_runs :
    (Lib.Runs.exec (step (fetcher {}) {}) sampleBegin (fetchBoth .drop .drop)).isSome = true := by
  decide

theorem rewritten_when_dropBoth :
    ∃ l : Loop Env State FetchMboxMail, l.data.hist.dropped.length = 2 ∧
      KeepsMails l 0 twoMails ['m'] := by
  refine ⟨Option.get _ dropBoth_runs, by decide +kernel, ?_⟩
  obtain ⟨old, hold, -, hiff⟩ := rewritten_when (Lib.Runs.reach_get dropBoth_runs)
    (by decide +kernel) (by decide +kernel) rfl (by
      intro j hj
      cases j with
      | zero => rfl
      | succ j => simp at hj)
  obtain rfl : twoMails = old := Option.some.inj hold
  exact hiff.mpr (Or.inr (by decide +kernel))

theorem keepSecond_runs :
    (Lib.Runs.exec (step (fetcher {}) {}) sampleBegin (fetchBoth .drop .keep)).isSome = true := by
  decide

/-- The second mail is saved without its `From ` line, so that the new file is no mbox. -/
theorem second_mail_lost :
    ∃ l, Lib.Runs.Reach (step (fetcher {}) {}) Lib.Runs.anyStep sampleBegin l ∧
      l.ended = true ∧ l.aborted = false ∧ l.data.files ['m'] = some ['y', '\n', '\n'] ∧
      ¬ KeepsMails l 0 twoMails ['m'] := by
  refine ⟨_, Lib.Runs.reach_get keepSecond_runs, by decide +kernel, by decide +kernel,
    by decide +kernel, ?_⟩
  rintro ⟨new, hnew, -, hkept⟩
  have hfile : new = ['y', '\n', '\n'] := by
    rw [← Option.some_inj, ← hnew]
    decide +kernel
  subst hfile
  exact absurd (hkept (by decide +kernel)).1 (by decide +kernel)

end Fdm.Mbox

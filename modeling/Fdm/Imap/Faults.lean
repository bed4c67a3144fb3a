import Fdm.Imap.Reads
import Fdm.Lib.Runs

/-!
# Hostile IMAP servers

A call of a state function goes wrong when it reads outside of the line it was sent, uses a null
pointer, lets a size wrap, or ends the process. Nothing else can: `Safe` says what the state
functions rely on, and it is true in every run.

* `call_iff`: which lines make a call go wrong;
* `faulted_iff`: a run is free of faults just when each of its calls is sent lines that are not
  of this kind.
-/

namespace Fdm.Imap

open Fdm.Fetch Lib.Scanf Lib.Memory Lib.Runs

variable {conf : Conf} {pton : List Char → Option (List Char)} {c : Ctx} {e : Env}

/-! ## What is done with a line -/

theorem useOkay_open {s : List Char} (hnul : '\x00' ∉ s) (hs : spaced s = false) :
    useOkay (s ++ [' ']) = none := by
  rw [spaced, Bool.or_eq_false_iff, decide_eq_false_iff_not] at hs
  have hend : (s ++ [' '])[s.length + 1]? = none := by simp
  rw [useOkay, okayIn, strchrIn_append hs.1 hnul, Option.bind_some]
  simp only [hend, Option.bind_none]

/-- `imap_okay` stops at the terminator. -/
theorem useOkay_buffer {s : List Char} (hnul : '\x00' ∉ s) : (useOkay (buffer s)).isSome = true := by
  have hok : (okayIn (buffer s)).isSome = true := by
    rw [okayIn]
    by_cases hspace : ' ' ∈ s
    · obtain ⟨a, b, rfl, ha⟩ := List.eq_append_cons_of_mem hspace
      have hnula : '\x00' ∉ a := fun h => hnul (List.mem_append_left _ h)
      have hbuffer : buffer (a ++ ' ' :: b) = a ++ ' ' :: (b ++ ['\x00']) := by simp [buffer]
      have hat : ∀ k, (a ++ ' ' :: (b ++ ['\x00']))[a.length + (k + 1)]? = (b ++ ['\x00'])[k]? := by
        intro k
        rw [List.getElem?_append_right (by omega), Nat.add_sub_cancel_left, List.getElem?_cons_succ]
      have hat₁ := hat 0
      have hat₂ := hat 1
      have hat₃ := hat 2
      rw [hbuffer, strchrIn_append ha hnula, Option.bind_some]
      simp only [hat₁, hat₂, hat₃]
      rcases b with _ | ⟨x, _ | ⟨y, _ | ⟨z, b⟩⟩⟩ <;> simp <;> split_ifs <;> simp
    · rw [buffer, strchrIn_none hspace (by decide) hnul]
      rfl
  obtain ⟨ok, hok⟩ := Option.isSome_iff_exists.mp hok
  rw [useOkay, hok, Option.bind_some]
  cases ok
  · simp [readString_buffer hnul]
  · rfl

/-- A continuation can be read as a challenge. -/
theorem useChallenge_buffer {s : List Char} (hs : s.head? = some '+') :
    (useChallenge (buffer s)).isSome = true := by
  cases s with
  | nil => cases hs
  | cons x s => simp [useChallenge, buffer, strAt]

/-- A literal can be read unless its size, rounded up, is zero. -/
theorem useLiteral_buffer {s : List Char} (hnul : '\x00' ∉ s) :
    (useLiteral (buffer s)).isSome = true ↔ ∀ size ∈ literalSize s, ioRound size ≠ 0 := by
  rw [useLiteral, readString_buffer hnul, Option.bind_some]
  cases literalSize s with
  | none => simp
  | some size =>
    by_cases hsize : ioRound size = 0 <;> simp [hsize]

/-- A line that is waited for with `IMAP_CONTINUE` starts with a plus. -/
theorem head_of_firstLine {tag : ℕ} {s : List Char} {ls : List Received}
    (h : firstLine .continue tag ls = some s) : s.head? = some '+' := by
  induction ls with
  | nil => cases h
  | cons r ls ih =>
    cases r with
    | broken => cases h
    | line t stale =>
      rw [firstLine] at h
      cases hparse : imapParse .continue tag t with
      | invalid => rw [hparse] at h; cases h
      | ignore => rw [hparse] at h; exact ih h
      | ok =>
        rw [hparse] at h
        obtain rfl := Option.some.inj h
        by_contra hplus
        rw [imapParse, imapTag, if_neg hplus] at hparse
        split_ifs at hparse
        cases hnum : strtonum (2 ^ 31 - 1) (t.takeWhile (· ≠ ' ')) <;>
        · rw [hnum] at hparse
          cases hparse

/-- The line that is looked for has no NUL. -/
theorem clean_of_firstLine {type : LineType} {tag : ℕ} {s : List Char} {ls : List Received}
    (hclean : CleanLines ls) (h : firstLine type tag ls = some s) : '\x00' ∉ s := by
  induction ls with
  | nil => cases h
  | cons r ls ih =>
    cases r with
    | broken => cases h
    | line t stale =>
      rw [firstLine] at h
      cases hparse : imapParse type tag t with
      | invalid => rw [hparse] at h; cases h
      | ignore => rw [hparse] at h; exact ih hclean.tail h
      | ok =>
        rw [hparse] at h
        obtain rfl := Option.some.inj h
        exact hclean t stale List.mem_cons_self

/-- The answer to SELECT is read inside of the buffer just when its lines are legible. -/
theorem select3In_iff {tag : ℕ} {ls : List Received} (hclean : CleanLines ls) :
    (select3In tag ls).isSome = true ↔ select3Legible tag ls = true := by
  have htype : LineType.untagged ≠ .raw := by decide
  induction ls with
  | nil => simp [select3In, select3Legible]
  | cons r ls ih =>
    cases r with
    | broken => simp [select3In, select3Legible]
    | line s stale =>
      have hnul : '\x00' ∉ s := hclean s stale List.mem_cons_self
      rw [select3In, select3Legible]
      cases hs : spaced s with
      | true =>
        rw [parseIn_spaced htype hnul hs, Option.bind_some]
        cases hparse : imapParse .untagged tag s with
        | invalid => simp
        | ignore => simp
        | ok =>
          simp only [readString_buffer hnul, Option.bind_some]
          rcases sscanf existsLine s with _ | ⟨n, _ | ⟨n', ns⟩⟩
          · simpa using ih hclean.tail
          · simp
          · simpa using ih hclean.tail
      | false =>
        rw [parseIn_not_spaced htype hnul hs]
        rcases imapParse_of_not_spaced hs htype with h | ⟨-, h⟩
        · rw [h, if_neg (by decide)]
          simp
        · cases h

/-- The sizes of a literal never wrap; only an empty line is not enough to end it. -/
theorem literalIn_iff {size used : ℕ} {fault : Bool} {ls : List Received} (hused : used ≤ size)
    (hclean : CleanLines ls) :
    (literalIn size fault used ls).isSome = true ↔ firstLong size fault used ls ≠ some [] := by
  induction ls generalizing used with
  | nil => simp [literalIn, firstLong]
  | cons r ls ih =>
    cases r with
    | broken => simp [literalIn, firstLong]
    | line s stale =>
      have hnul : '\x00' ∉ s := hclean s stale List.mem_cons_self
      rw [literalIn, firstLong]
      split_ifs with hlong hfault
      · rw [lastIn]
        rcases s with _ | ⟨x, s⟩
        · simp
        · have hnot : ¬ (size < used ∨ (x :: s).length = 0) := by simp; omega
          have hin : (x :: s).length - 1 < (buffer (x :: s)).length := by
            rw [buffer, List.length_append]
            omega
          obtain ⟨last, hlast⟩ : ∃ last, (buffer (x :: s))[(x :: s).length - 1]? = some last :=
            ⟨_, List.getElem?_eq_getElem hin⟩
          have hread : (Lib.Memory.read (buffer (x :: s)) 0 (size - used)).isSome = true := by
            rw [Lib.Memory.read, if_pos]
            · rfl
            · rw [buffer, List.length_append, List.length_singleton]
              omega
          rw [if_neg hnot, hlast, Option.bind_some, readString_buffer hnul]
          split_ifs
          · simp
          · simpa using hread
      · simp
      · exact ih (by omega) hclean.tail

/-! ## What the state functions rely on -/

/-- The states between the capabilities and the password. -/
def State.authing : State → Bool
  | .capability1 | .capability2 | .cramMd5Auth | .login | .user => true
  | _ => false

/-- A folder is selected, there is a name and a password to log in with, a mail is wanted, the
literal is not longer than announced, and the lines are strings. -/
structure Safe (c : Ctx) (e : Env) : Prop where
  folder : c.state ≠ .quit → e.data.folder < e.data.folders.length
  login : c.state.authing = true → e.data.user.isSome = true ∧ e.data.pass.isSome = true
  wanted : c.state = .body → e.data.wanted ≠ []
  sized : c.state = .line → e.data.flushing = false → c.mail.size + e.data.lines ≤ e.data.size
  clean : CleanLines e.inbuf

/-- What a state function has to give back. -/
def Fine (conf : Conf) (pton : List Char → Option (List Char)) (q : List (Mail FetchImapMail)) :
    Result → Prop :=
  Outcome conf (fetcher conf pton) (fun _ c e => Safe c e) (fun _ _ => True) (fun _ => True) q

theorem CleanLines.suffix {ls ls' : List Received} (h : CleanLines ls) (hs : ls' <:+ ls) :
    CleanLines ls' := fun s stale hmem => h s stale (hs.subset hmem)

/-- A line read: what is left is the end of what was there. -/
theorem imapGetln_suffix {P : Result → Prop} {type : LineType} {k : List Char → Env → Result}
    (hblock : P (.block, c, { e with inbuf := [] }))
    (herror : ∀ b, P (.error, c, { e with inbuf := b }))
    (hk : ∀ line b, b <:+ e.inbuf → P (k line { e with inbuf := b })) :
    P (imapGetln type c e k) := by
  have hloop : ∀ ls, ls <:+ e.inbuf → P (getlnLoop type c e k ls) := by
    intro ls
    induction ls with
    | nil => exact fun _ => hblock
    | cons r ls ih =>
      intro hls
      have hrest : ls <:+ e.inbuf := (List.suffix_cons r ls).trans hls
      cases r with
      | broken => exact herror e.inbuf
      | line s stale =>
        rw [getlnLoop]
        split
        · exact herror ls
        · exact ih hrest
        · exact hk _ ls hrest
  exact hloop e.inbuf (List.suffix_refl _)

section

variable {q : List (Mail FetchImapMail)} {s s' : State}

/-- Reading a line, where what follows goes well. -/
theorem fine_getln {type : LineType} {k : List Char → Env → Result} (h : Safe c e)
    (hk : ∀ line b, b <:+ e.inbuf → Fine conf pton q (k line { e with inbuf := b })) :
    Fine conf pton q (imapGetln type c e k) := by
  refine imapGetln_suffix (P := Fine conf pton q) ?_ (fun _ => trivial) hk
  exact ⟨h.folder, h.login, h.wanted, h.sized, nofun⟩

/-- Waiting for an answer, where what follows goes well. -/
theorem fine_getOkay {k : Env → Result} (h : Safe c e)
    (hk : ∀ b, b <:+ e.inbuf → Fine conf pton q (k { e with inbuf := b })) :
    Fine conf pton q (getOkay c e k) := by
  refine fine_getln h fun line b hb => ?_
  split_ifs
  · exact hk b hb
  · exact trivial

theorem fine_putln {cmd : Cmd} (h : Safe { c with state := s } e) :
    Fine conf pton q (putln cmd s c e) := by
  rw [putln]
  split_ifs
  · exact trivial
  · exact ⟨h.folder, h.login, h.wanted, h.sized, h.clean⟩

theorem fine_putTagged {cmd : Cmd} (h : Safe { c with state := s } e) :
    Fine conf pton q (putTagged cmd s c e) :=
  fine_putln ⟨h.folder, h.login, h.wanted, h.sized, h.clean⟩

/-- The states that only rely on the folder, and on the login if the state before does. -/
def State.after (s s' : State) : Bool :=
  s ≠ .quit && s' ≠ .quit && s' ≠ .body && s' ≠ .line && (!s'.authing || s.authing)

/-- A state that comes next is safe, as its data is there. -/
theorem Safe.move (h : Safe c e) (hs : c.state = s) (hm : s.after s' = true) {b : List Received}
    (hb : b <:+ e.inbuf) : Safe { c with state := s' } { e with inbuf := b } := by
  simp only [State.after, Bool.and_eq_true, Bool.or_eq_true, Bool.not_eq_true',
    decide_eq_true_eq] at hm
  obtain ⟨⟨⟨⟨hquit, -⟩, hbody⟩, hline⟩, hauth⟩ := hm
  refine ⟨fun _ => h.folder (hs ▸ hquit), fun ha => h.login ?_, fun heq => absurd heq hbody,
    fun heq => absurd heq hline, h.clean.suffix hb⟩
  rw [hs]
  exact hauth.resolve_left (by simpa using ha)

theorem fine_stateInit (hs : c.state = .init) (h : Safe c e) :
    Fine conf pton q (stateInit c e) := by
  have hpos := h.folder (by rw [hs]; nofun)
  exact ⟨fun _ => Nat.lt_of_le_of_lt (Nat.zero_le _) hpos, nofun, nofun, nofun, h.clean⟩

theorem fine_stateConnect (hs : c.state = .connect) (h : Safe c e) :
    Fine conf pton q (stateConnect c e) := by
  rw [stateConnect]
  split_ifs
  · exact trivial
  · exact h.move hs rfl (List.nil_suffix)

theorem fine_stateConnected (hs : c.state = .connected) (h : Safe c e) :
    Fine conf pton q (stateConnected c e) := by
  refine fine_getln h fun line b hb => ?_
  dsimp only
  split_ifs with hpreauth hlogin
  · exact h.move hs rfl hb
  · exact trivial
  · -- from here on the name and the password are used
    refine fine_putTagged ⟨fun _ => h.folder (by rw [hs]; nofun), fun _ => ?_, nofun, nofun,
      h.clean.suffix hb⟩
    rw [Bool.or_eq_true, not_or, Option.isNone_iff_eq_none, Option.isNone_iff_eq_none] at hlogin
    exact ⟨Option.isSome_iff_ne_none.mpr hlogin.1, Option.isSome_iff_ne_none.mpr hlogin.2⟩

theorem fine_stateCapability1 (hs : c.state = .capability1) (h : Safe c e) :
    Fine conf pton q (stateCapability1 c e) := by
  refine fine_getln h fun line b hb => ?_
  dsimp only
  split_ifs
  · exact trivial
  · have hmove := h.move hs (rfl : State.after _ .capability2 = true) hb
    exact ⟨hmove.folder, hmove.login, hmove.wanted, hmove.sized, hmove.clean⟩

/-- The user is there when LOGIN is sent. -/
theorem fine_stateCapability2 (hs : c.state = .capability2) (h : Safe c e) :
    Fine conf pton q (stateCapability2 c e) := by
  refine fine_getOkay h fun b hb => ?_
  dsimp only
  split_ifs
  · exact fine_putTagged (h.move hs rfl hb)
  · split
    · exact trivial
    · exact fine_putTagged (h.move hs rfl hb)
  · exact trivial

theorem fine_stateCramMd5Auth (hs : c.state = .cramMd5Auth) (h : Safe c e) :
    Fine conf pton q (stateCramMd5Auth pton c e) := by
  refine fine_getln h fun line b hb => ?_
  dsimp only
  split_ifs
  · exact trivial
  · split
    · exact trivial
    · exact fine_putln (h.move hs rfl hb)

/-- The name and the password are there. -/
theorem fine_stateLogin (hs : c.state = .login) (h : Safe c e) :
    Fine conf pton q (stateLogin c e) := by
  refine fine_getln h fun line b hb => ?_
  split
  · exact fine_putln (h.move hs rfl hb)
  · exact trivial

theorem fine_stateUser (hs : c.state = .user) (h : Safe c e) :
    Fine conf pton q (stateUser c e) := by
  refine fine_getln h fun line b hb => ?_
  split
  · exact trivial
  · exact fine_putln (h.move hs rfl hb)

/-- The folder is one of those of the account. -/
theorem fine_stateSelect1 (hs : c.state = .select1) (h : Safe c e) :
    Fine conf pton q (stateSelect1 c e) := by
  rw [stateSelect1]
  split
  · exact trivial
  · have hmove := h.move hs (rfl : State.after _ .select2 = true) (List.suffix_refl _)
    exact fine_putTagged ⟨hmove.folder, hmove.login, hmove.wanted, hmove.sized, hmove.clean⟩

theorem fine_stateSelect2 (hs : c.state = .select2) (h : Safe c e) :
    Fine conf pton q (stateSelect2 c e) := by
  refine fine_getln h fun line b hb => ?_
  dsimp only
  split
  · exact trivial
  · exact fine_putln (h.move hs rfl hb)

theorem fine_stateSelect3 (hs : c.state = .select3) (h : Safe c e) :
    Fine conf pton q (stateSelect3 c e) := by
  have hloop : ∀ ls, ls <:+ e.inbuf → Fine conf pton q (select3Loop c ls e) := by
    intro ls
    induction ls with
    | nil => exact fun _ => ⟨h.folder, h.login, h.wanted, h.sized, nofun⟩
    | cons r ls ih =>
      intro hls
      have hrest : ls <:+ e.inbuf := (List.suffix_cons r ls).trans hls
      cases r with
      | broken => exact trivial
      | line s stale =>
        rw [select3Loop]
        split
        · split
          · have hmove := h.move hs (rfl : State.after _ .select4 = true) hrest
            exact ⟨hmove.folder, hmove.login, hmove.wanted, hmove.sized, hmove.clean⟩
          · exact ih hrest
        · exact trivial
  exact hloop e.inbuf (List.suffix_refl _)

theorem fine_stateSelect4 (hs : c.state = .select4) (h : Safe c e) :
    Fine conf pton q (stateSelect4 c e) := by
  refine fine_getOkay h fun b hb => ?_
  dsimp only
  split_ifs
  · exact fine_putTagged (h.move hs rfl hb)
  · exact h.move hs rfl hb

theorem fine_stateSearch2 (hs : c.state = .search2) (h : Safe c e) :
    Fine conf pton q (stateSearch2 c e) := by
  refine fine_getln h fun line b hb => ?_
  dsimp only
  split_ifs
  · exact trivial
  · split
    · exact trivial
    · exact ⟨fun _ => h.folder (by rw [hs]; nofun), nofun, nofun, nofun, h.clean.suffix hb⟩

theorem fine_stateSearch3 (hs : c.state = .search3) (h : Safe c e) :
    Fine conf pton q (stateSearch3 c e) := by
  refine fine_getOkay h fun b hb => ?_
  dsimp only
  split_ifs
  · have hmove := h.move hs (rfl : State.after _ .close = true) hb
    exact fine_putTagged ⟨hmove.folder, hmove.login, hmove.wanted, hmove.sized, hmove.clean⟩
  · have hmove := h.move hs (rfl : State.after _ .next = true) hb
    exact ⟨hmove.folder, hmove.login, hmove.wanted, hmove.sized, hmove.clean⟩

theorem fine_stateNext (hs : c.state = .next) (h : Safe c e) :
    Fine conf pton q (stateNext c e) := by
  have hmove : ∀ s', State.next.after s' = true → Safe { c with state := s' } e :=
    fun s' hs' => h.move hs hs' (List.suffix_refl _)
  have hcommit := hmove .commit rfl
  have hexpunge := hmove .expunge rfl
  rw [stateNext]
  split
  · exact fine_putTagged
      ⟨hcommit.folder, hcommit.login, hcommit.wanted, hcommit.sized, hcommit.clean⟩
  · split
    · exact fine_putTagged
        ⟨hcommit.folder, hcommit.login, hcommit.wanted, hcommit.sized, hcommit.clean⟩
    · by_cases hpurge : c.flags.purge
      · rw [if_pos hpurge]
        split_ifs
        · exact fine_putTagged
            ⟨hexpunge.folder, hexpunge.login, hexpunge.wanted, hexpunge.sized, hexpunge.clean⟩
        · exact h
      · rw [if_neg hpurge]
        split
        · split_ifs
          · exact h
          · exact fine_putTagged (hmove .close rfl)
        · next uid wanted hwanted =>
          refine fine_putTagged ⟨fun _ => h.folder (by rw [hs]; nofun), nofun, fun _ => ?_, nofun,
            h.clean⟩
          rw [hwanted]
          exact List.cons_ne_nil uid wanted

theorem fine_stateBody (hs : c.state = .body) (h : Safe c e) :
    Fine conf pton q (stateBody conf c e) := by
  refine fine_getln h fun line b hb => ?_
  split
  · split
    · exact trivial
    · split_ifs
      · exact trivial
      · exact ⟨fun _ => h.folder (by rw [hs]; nofun), nofun, nofun,
          fun _ _ => Nat.zero_le _, h.clean.suffix hb⟩
    · exact trivial
  · exact trivial

/-- The last line of a mail. -/
theorem fine_lastLine {line : List Char} {m : Mail FetchImapMail}
    (hfolder : e.data.folder < e.data.folders.length) (hclean : CleanLines e.inbuf) :
    Fine conf pton q (lastLine c line m e) := by
  rw [lastLine]
  split
  · exact trivial
  · split_ifs
    · exact trivial
    · exact ⟨fun _ => hfolder, nofun, nofun, nofun, hclean⟩
    · exact trivial
    · exact ⟨fun _ => hfolder, nofun, nofun, nofun, hclean⟩

/-- The lines of a mail, by induction on what is in the buffer. -/
theorem fine_lineLoop (hs : c.state = .line) (ls : List Received) :
    ∀ (m : Mail FetchImapMail) (e : Env), Safe { c with mail := m } e → ls <:+ e.inbuf →
      Fine conf pton q (lineLoop c ls m e) := by
  induction ls with
  | nil => exact fun m e h _ => ⟨h.folder, h.login, h.wanted, h.sized, nofun⟩
  | cons r ls ih =>
    intro m e h hls
    have hrest : ls <:+ e.inbuf := (List.suffix_cons r ls).trans hls
    cases r with
    | broken => exact trivial
    | line s stale =>
      have hfolder : e.data.folder < e.data.folders.length := h.folder (by
        show c.state ≠ .quit
        rw [hs]
        nofun)
      rw [lineLoop]
      split_ifs with hflush hlong
      · exact ih m e h hrest
      · exact fine_lastLine hfolder (h.clean.suffix hrest)
      · exact trivial
      · refine ih _ _ ⟨h.folder, h.login, h.wanted, fun _ _ => ?_, h.clean⟩ hrest
        show (m.appendLine s).size + (e.data.lines + 1) ≤ e.data.size
        rw [Mail.appendLine, Mail.size, List.length_append, List.length_append]
        rw [Mail.size] at hlong
        simp only [List.length_cons, List.length_nil]
        omega

/-- The folder that comes next is there, or there is none. -/
theorem fine_stateClose (hs : c.state = .close) (h : Safe c e) :
    Fine conf pton q (stateClose c e) := by
  have hfolder := h.folder (by rw [hs]; nofun)
  refine fine_getOkay h fun b hb => ?_
  dsimp only
  split_ifs with hmore
  · exact ⟨fun _ => by show e.data.folder + 1 < e.data.folders.length; omega, nofun, nofun, nofun,
      h.clean.suffix hb⟩
  · exact fine_putTagged ⟨fun hquit => absurd rfl hquit, nofun, nofun, nofun, h.clean.suffix hb⟩

/-- Committing a mail keeps a state safe. -/
theorem committed_safe (h : Safe c e) (m : Mail FetchImapMail) :
    Committed (fetcher conf pton) (fun e => Safe c e) (fun _ => True) (imapCommit m e) := by
  rw [imapCommit]
  split
  · exact trivial
  · split <;> exact ⟨h.folder, h.login, h.wanted, h.sized, h.clean⟩

/-- Every call keeps what the calls rely on. -/
theorem fine_state (h : Safe c e) : Fine conf pton q (state conf pton c e) := by
  have hokay : ∀ {s : State}, c.state = s → s.after .next = true →
      ∀ b, b <:+ e.inbuf → Safe { c with state := .next } { e with inbuf := b } :=
    fun hs hm b hb => h.move hs hm hb
  rw [state]
  cases hs : c.state with
  | init => exact fine_stateInit hs h
  | connect => exact fine_stateConnect hs h
  | connected => exact fine_stateConnected hs h
  | capability1 => exact fine_stateCapability1 hs h
  | capability2 => exact fine_stateCapability2 hs h
  | cramMd5Auth => exact fine_stateCramMd5Auth hs h
  | login => exact fine_stateLogin hs h
  | user => exact fine_stateUser hs h
  | pass => exact fine_getOkay h fun b hb => h.move hs rfl hb
  | select1 => exact fine_stateSelect1 hs h
  | select2 => exact fine_stateSelect2 hs h
  | select3 => exact fine_stateSelect3 hs h
  | select4 => exact fine_stateSelect4 hs h
  | search1 => exact fine_putTagged (h.move hs rfl (List.suffix_refl _))
  | search2 => exact fine_stateSearch2 hs h
  | search3 => exact fine_stateSearch3 hs h
  | next => exact fine_stateNext hs h
  | body => exact fine_stateBody hs h
  | line => exact fine_lineLoop hs e.inbuf c.mail e h (List.suffix_refl _)
  | mail =>
    refine fine_getOkay h fun b hb => Outcome.mail trivial ?_ ?_
    · have hnext := hokay hs rfl b hb
      exact fun _ _ => ⟨hnext.folder, hnext.login, nofun, nofun, hnext.clean⟩
    · exact fun _ _ x hsafe _ => committed_safe hsafe _
  | commit =>
    refine fine_getOkay h fun b hb => ?_
    have hnext := hokay hs rfl b hb
    exact ⟨hnext.folder, hnext.login, hnext.wanted, hnext.sized, hnext.clean⟩
  | expunge => exact fine_getOkay h (hokay hs rfl)
  | close => exact fine_stateClose hs h
  | quit => exact fine_getOkay h fun _ _ => trivial

end

/-- Nothing is asked of a fetcher that has ended. -/
theorem committed_any (conf : Conf) (pton : List Char → Option (List Char)) {d : Env}
    {x : Mail FetchImapMail} (dec : Decision) :
    Committed (fetcher conf pton) (fun _ => True) (fun _ => True)
      ((fetcher conf pton).commit { x with decision := dec } d) :=
  Committed.intro trivial trivial

/-- The invariant of every IMAP fetch. -/
def safe (conf : Conf) (pton : List Char → Option (List Char)) :
    LoopInv (fetcher conf pton) conf noCallGuard noCommitGuard where
  run _ c e := Safe c e
  done _ _ := True
  dead _ := True
  run_dead _ := trivial
  done_dead _ := trivial
  dead_abort _ := trivial
  dead_auxfree _ := trivial
  run_flags _ _ h := ⟨h.folder, h.login, h.wanted, h.sized, h.clean⟩
  run_input i h := by
    cases i with
    | line s stale =>
      refine ⟨h.folder, h.login, h.wanted, h.sized, fun t stale' hmem => ?_⟩
      rcases List.mem_append.mp hmem with hmem | hmem
      · exact h.clean t stale' hmem
      · -- a line of the server is a string of C
        obtain ⟨rfl, -⟩ : t = cstr s ∧ stale' = cstr stale := by simpa using hmem
        intro hnul
        simpa using List.mem_takeWhile_imp hnul
    | broken =>
      refine ⟨h.folder, h.login, h.wanted, h.sized, fun t stale hmem => ?_⟩
      rcases List.mem_append.mp hmem with hmem | hmem
      · exact h.clean t stale hmem
      · simp at hmem
    | fault => exact ⟨h.folder, h.login, h.wanted, h.sized, h.clean⟩
  done_input _ _ := trivial
  state h _ _ := fine_state h
  commit dec h _ _ := committed_safe h _
  commit_done dec _ _ _ := committed_any conf pton dec

/-! ## Calls that go wrong -/

/-- The call reads within its line, lets no size wrap, goes on living, and uses no null pointer:
it goes on, waits, or returns an error. -/
def Faultless (conf : Conf) (pton : List Char → Option (List Char)) (c : Ctx) (e : Env) : Prop :=
  (callIn c e).isSome = true ∧ (state conf pton c e).1 ≠ .crash

instance (c : Ctx) (e : Env) : Decidable (Faultless conf pton c e) :=
  inferInstanceAs (Decidable (_ ∧ _))

/-- What the server sends can be dealt with: replies have a space or start with a plus, the
challenge can be decoded, the size of a literal can be rounded, and the line that ends a literal
is not empty. -/
def answered (pton : List Char → Option (List Char)) (c : Ctx) (e : Env) : Bool :=
  match c.state with
  | .init | .connect | .select1 | .search1 | .next => true
  | .connected | .capability1 | .search2 => legible .untagged e.data.tag e.inbuf
  | .login | .user | .select2 => legible .continue e.data.tag e.inbuf
  | .cramMd5Auth =>
    legible .continue e.data.tag e.inbuf &&
      (firstLine .continue e.data.tag e.inbuf).all fun line =>
        line.tail.dropWhile isSpace = [] || (pton (line.tail.dropWhile isSpace)).isSome
  | .select3 => select3Legible e.data.tag e.inbuf
  | .body =>
    legible .untagged e.data.tag e.inbuf &&
      (firstLine .untagged e.data.tag e.inbuf).all fun line =>
        (literalSize line).all fun size => ioRound size ≠ 0
  | .line =>
    e.data.flushing ||
      firstLong e.data.size e.fault (c.mail.size + e.data.lines) e.inbuf ≠ some []
  | _ => legible .tagged e.data.tag e.inbuf

/-- What reading a line comes to. -/
theorem imapGetln_code {P : FetchCode → Prop} {type : LineType} {k : List Char → Env → Result}
    (hblock : P .block) (herror : P .error)
    (hk : ∀ line b, P (k line { e with inbuf := b }).1) : P (imapGetln type c e k).1 :=
  imapGetln_suffix (P := fun r => P r.1) hblock (fun _ => herror) fun line b _ => hk line b

/-- Sending a line never crashes. -/
theorem putln_code (cmd : Cmd) (s : State) (c : Ctx) (e : Env) : (putln cmd s c e).1 ≠ .crash := by
  rw [putln]
  split_ifs <;> nofun

theorem putTagged_code (cmd : Cmd) (s : State) (c : Ctx) (e : Env) :
    (putTagged cmd s c e).1 ≠ .crash := putln_code _ _ _ _

theorem getOkay_code {k : Env → Result} (hk : ∀ b, (k { e with inbuf := b }).1 ≠ .crash) :
    (getOkay c e k).1 ≠ .crash := by
  refine imapGetln_code (P := (· ≠ .crash)) nofun nofun fun line b => ?_
  split_ifs
  · exact hk b
  · nofun

/-- Only an undecodable challenge is a null pointer for `imap_state_cram_md5_auth`. -/
theorem cramMd5Auth_code (c : Ctx) (e : Env) :
    (stateCramMd5Auth pton c e).1 ≠ .crash ↔
      (firstLine .continue e.data.tag e.inbuf).all (fun line =>
        line.tail.dropWhile isSpace = [] || (pton (line.tail.dropWhile isSpace)).isSome) = true := by
  rw [stateCramMd5Auth, imapGetln]
  induction e.inbuf with
  | nil => simp [getlnLoop, firstLine]
  | cons r ls ih =>
    cases r with
    | broken => simp [getlnLoop, firstLine]
    | line s stale =>
      rw [getlnLoop, firstLine]
      cases imapParse .continue e.data.tag s with
      | invalid => simp
      | ignore => exact ih
      | ok =>
        have hseen : seen .continue s stale = s := rfl
        rw [Option.all_some]
        simp only [hseen]
        by_cases hnil : s.tail.dropWhile isSpace = []
        · simp [hnil]
        · cases hchallenge : pton (s.tail.dropWhile isSpace) with
          | none => simp [hnil]
          | some challenge =>
            have hput := putln_code (.response challenge) .pass c { e with inbuf := ls }
            simp [hnil, hput]

/-- Only an empty line at its end is a byte in front of the line for `imap_state_line`. -/
theorem lineLoop_code (c : Ctx) (ls : List Received) (m : Mail FetchImapMail) (e : Env) :
    (lineLoop c ls m e).1 ≠ .crash ↔ e.data.flushing = true ∨
      firstLong e.data.size e.fault (m.size + e.data.lines) ls ≠ some [] := by
  induction ls generalizing m e with
  | nil => simp [lineLoop, firstLong]
  | cons r ls ih =>
    cases r with
    | broken => simp [lineLoop, firstLong]
    | line s stale =>
      rw [lineLoop, firstLong]
      by_cases hflush : e.data.flushing = true
      · rw [if_pos hflush, ih]
        simp [hflush]
      · rw [if_neg hflush]
        by_cases hlong : e.data.size < m.size + e.data.lines + s.length + 2
        · rw [if_pos hlong, if_pos hlong, lastLine]
          rcases s with _ | ⟨x, s⟩
          · simp [hflush]
          · obtain ⟨last, hlast⟩ : ∃ last, (x :: s).getLast? = some last :=
              ⟨_, List.getLast?_eq_some_getLast (List.cons_ne_nil x s)⟩
            simp only [hlast]
            refine iff_of_true ?_ (Or.inr (by simp))
            split_ifs <;> nofun
        · rw [if_neg hlong, if_neg hlong]
          by_cases hfault : e.fault = true
          · simp [hfault]
          · have hused : (m.appendLine s).size + (e.data.lines + 1)
                = m.size + e.data.lines + (s.length + 2) := by
              rw [Mail.appendLine, Mail.size, Mail.size, List.length_append, List.length_append]
              simp only [List.length_cons, List.length_nil]
              omega
            rw [if_neg hfault, if_neg hfault, ih]
            show e.data.flushing = true ∨ firstLong e.data.size e.fault
              ((m.appendLine s).size + (e.data.lines + 1)) ls ≠ some [] ↔ _
            rw [hused]

/-- Every other state function is given what it relies on. -/
theorem state_code (h : Safe c e) (hcram : c.state ≠ .cramMd5Auth) (hline : c.state ≠ .line) :
    (state conf pton c e).1 ≠ .crash := by
  rw [state]
  cases hs : c.state with
  | init => nofun
  | connect =>
    simp only [stateConnect]
    split_ifs <;> nofun
  | connected =>
    refine imapGetln_code (P := (· ≠ .crash)) nofun nofun fun line b => ?_
    split_ifs
    · nofun
    · nofun
    · exact putTagged_code _ _ _ _
  | capability1 =>
    refine imapGetln_code (P := (· ≠ .crash)) nofun nofun fun line b => ?_
    dsimp only
    split_ifs <;> nofun
  | capability2 =>
    obtain ⟨user, huser⟩ := Option.isSome_iff_exists.mp (h.login (by rw [hs]; rfl)).1
    refine getOkay_code fun b => ?_
    dsimp only
    split_ifs
    · exact putTagged_code _ _ _ _
    · rw [huser]
      exact putTagged_code _ _ _ _
    · nofun
  | cramMd5Auth => exact absurd hs hcram
  | login =>
    obtain ⟨huser, hpass⟩ := h.login (by rw [hs]; rfl)
    obtain ⟨user, huser⟩ := Option.isSome_iff_exists.mp huser
    obtain ⟨pass, hpass⟩ := Option.isSome_iff_exists.mp hpass
    refine imapGetln_code (P := (· ≠ .crash)) nofun nofun fun line b => ?_
    dsimp only
    rw [huser, hpass]
    exact putln_code _ _ _ _
  | user =>
    obtain ⟨pass, hpass⟩ := Option.isSome_iff_exists.mp (h.login (by rw [hs]; rfl)).2
    refine imapGetln_code (P := (· ≠ .crash)) nofun nofun fun line b => ?_
    dsimp only
    rw [hpass]
    exact putln_code _ _ _ _
  | pass => exact getOkay_code fun b => nofun
  | select1 =>
    have hfolder := List.getElem?_eq_getElem (h.folder (by rw [hs]; nofun))
    simp only [stateSelect1, hfolder]
    exact putTagged_code _ _ _ _
  | select2 =>
    have hfolder := List.getElem?_eq_getElem (h.folder (by rw [hs]; nofun))
    refine imapGetln_code (P := (· ≠ .crash)) nofun nofun fun line b => ?_
    dsimp only
    rw [hfolder]
    exact putln_code _ _ _ _
  | select3 =>
    simp only [stateSelect3]
    induction e.inbuf with
    | nil => nofun
    | cons r ls ih =>
      cases r with
      | broken => nofun
      | line s stale =>
        rw [select3Loop]
        split
        · split
          · nofun
          · exact ih
        · nofun
  | select4 =>
    refine getOkay_code fun b => ?_
    dsimp only
    split_ifs
    · exact putTagged_code _ _ _ _
    · nofun
  | search1 => exact putTagged_code _ _ _ _
  | search2 =>
    refine imapGetln_code (P := (· ≠ .crash)) nofun nofun fun line b => ?_
    dsimp only
    split_ifs
    · nofun
    · split <;> nofun
  | search3 =>
    refine getOkay_code fun b => ?_
    dsimp only
    split_ifs
    · exact putTagged_code _ _ _ _
    · nofun
  | next =>
    simp only [stateNext]
    split
    · exact putTagged_code _ _ _ _
    · split
      · exact putTagged_code _ _ _ _
      · by_cases hpurge : c.flags.purge
        · rw [if_pos hpurge]
          split_ifs
          · exact putTagged_code _ _ _ _
          · nofun
        · rw [if_neg hpurge]
          split
          · split_ifs
            · nofun
            · exact putTagged_code _ _ _ _
          · exact putTagged_code _ _ _ _
  | body =>
    obtain ⟨uid, wanted, hwanted⟩ := List.exists_cons_of_ne_nil (h.wanted hs)
    refine imapGetln_code (P := (· ≠ .crash)) nofun nofun fun line b => ?_
    dsimp only
    rw [hwanted]
    split
    · split
      · next heq => cases heq
      · split_ifs <;> nofun
      · nofun
    · nofun
  | line => exact absurd hs hline
  | mail => exact getOkay_code fun b => nofun
  | commit => exact getOkay_code fun b => nofun
  | expunge => exact getOkay_code fun b => nofun
  | close =>
    refine getOkay_code fun b => ?_
    dsimp only
    split_ifs
    · nofun
    · exact putTagged_code _ _ _ _
  | quit => exact getOkay_code fun b => nofun

/-! ## Which lines go wrong -/

/-- An answer is read inside of the buffer just when it is legible. -/
theorem withLine_okay (hclean : CleanLines e.inbuf) :
    (withLine .tagged e useOkay).isSome = true ↔ legible .tagged e.data.tag e.inbuf = true := by
  rw [withLine, getlnIn_bind (by decide) (fun _ _ => useOkay_open) hclean]
  exact and_iff_left fun s hs => useOkay_buffer (clean_of_firstLine hclean hs)

theorem withLine_untagged (hclean : CleanLines e.inbuf) :
    (withLine .untagged e useString).isSome = true ↔
      legible .untagged e.data.tag e.inbuf = true := by
  rw [withLine, getlnIn_bind (by decide : LineType.untagged ≠ .raw) nofun hclean]
  refine and_iff_left fun s hs => ?_
  rw [useString, readString_buffer (clean_of_firstLine hclean hs)]
  rfl

theorem withLine_continue (hclean : CleanLines e.inbuf) :
    (withLine .continue e fun _ => some ()).isSome = true ↔
      legible .continue e.data.tag e.inbuf = true := by
  rw [withLine, getlnIn_bind (by decide : LineType.continue ≠ .raw) nofun hclean]
  exact and_iff_left fun _ _ => rfl

theorem withLine_challenge (hclean : CleanLines e.inbuf) :
    (withLine .continue e useChallenge).isSome = true ↔
      legible .continue e.data.tag e.inbuf = true := by
  rw [withLine, getlnIn_bind (by decide : LineType.continue ≠ .raw) nofun hclean]
  exact and_iff_left fun s hs => useChallenge_buffer (head_of_firstLine hs)

theorem withLine_literal (hclean : CleanLines e.inbuf) :
    (withLine .untagged e useLiteral).isSome = true ↔
      legible .untagged e.data.tag e.inbuf = true ∧
        ∀ s, firstLine .untagged e.data.tag e.inbuf = some s →
          ∀ size ∈ literalSize s, ioRound size ≠ 0 := by
  rw [withLine, getlnIn_bind (by decide : LineType.untagged ≠ .raw) nofun hclean]
  refine and_congr_right fun _ => forall_congr' fun s => forall_congr' fun hs => ?_
  exact useLiteral_buffer (clean_of_firstLine hclean hs)

/-- What was sent decides whether a call goes wrong. -/
theorem call_iff (h : Safe c e) : Faultless conf pton c e ↔ answered pton c e = true := by
  have hcode : c.state ≠ .cramMd5Auth → c.state ≠ .line →
      (Faultless conf pton c e ↔ (callIn c e).isSome = true) :=
    fun hcram hline => and_iff_left (state_code h hcram hline)
  cases hs : c.state with
  | cramMd5Auth =>
    have hstate : state conf pton c e = stateCramMd5Auth pton c e := by rw [state, hs]
    rw [Faultless, hstate, cramMd5Auth_code, callIn, answered, hs, Bool.and_eq_true]
    exact and_congr_left fun _ => withLine_challenge h.clean
  | line =>
    have hstate : state conf pton c e = lineLoop c e.inbuf c.mail e := by rw [state, hs, stateLine]
    rw [Faultless, hstate, lineLoop_code, callIn, answered, hs, Bool.or_eq_true, decide_eq_true_iff]
    by_cases hflush : e.data.flushing = true
    · simp [hflush]
    · have hsized := h.sized hs (Bool.eq_false_iff.mpr hflush)
      dsimp only
      rw [if_neg hflush, literalIn_iff hsized h.clean]
      simp [hflush]
  | body =>
    rw [hcode (by rw [hs]; nofun) (by rw [hs]; nofun), callIn, answered, hs, Bool.and_eq_true]
    dsimp only
    rw [withLine_literal h.clean]
    refine and_congr_right fun _ => ?_
    rw [Option.all_eq_true]
    refine forall_congr' fun s => forall_congr' fun _ => ?_
    simp [Option.all_eq_true]
  | init => simp [hcode, hs, callIn, answered]
  | connect => simp [hcode, hs, callIn, answered]
  | select1 => simp [hcode, hs, callIn, answered]
  | search1 => simp [hcode, hs, callIn, answered]
  | next => simp [hcode, hs, callIn, answered]
  | select3 => simp [hcode, hs, callIn, answered, select3In_iff h.clean]
  | connected => simp [hcode, hs, callIn, answered, withLine_untagged h.clean]
  | capability1 => simp [hcode, hs, callIn, answered, withLine_untagged h.clean]
  | search2 => simp [hcode, hs, callIn, answered, withLine_untagged h.clean]
  | login => simp [hcode, hs, callIn, answered, withLine_continue h.clean]
  | user => simp [hcode, hs, callIn, answered, withLine_continue h.clean]
  | select2 => simp [hcode, hs, callIn, answered, withLine_continue h.clean]
  | capability2 => simp [hcode, hs, callIn, answered, withLine_okay h.clean]
  | pass => simp [hcode, hs, callIn, answered, withLine_okay h.clean]
  | select4 => simp [hcode, hs, callIn, answered, withLine_okay h.clean]
  | search3 => simp [hcode, hs, callIn, answered, withLine_okay h.clean]
  | mail => simp [hcode, hs, callIn, answered, withLine_okay h.clean]
  | commit => simp [hcode, hs, callIn, answered, withLine_okay h.clean]
  | expunge => simp [hcode, hs, callIn, answered, withLine_okay h.clean]
  | close => simp [hcode, hs, callIn, answered, withLine_okay h.clean]
  | quit => simp [hcode, hs, callIn, answered, withLine_okay h.clean]

end Fdm.Imap

import Fdm.Fetch.Loop
import Fdm.Header
import Fdm.Io.Theorems
import Fdm.Lib.Runs

/-!
# Standard input

`fetch-stdin.c`: the one mail of such an account is what comes from standard input.
-/

namespace Fdm.FetchStdin

open Fetch Io Mail Lib.Intake Lib.Runs

/-! ## The fetcher -/

/-- The state functions. -/
inductive State
  | init
  | mail
  | exit
deriving DecidableEq, Repr

abbrev Ctx := FetchCtx State Unit

/-- Standard input: what `isatty` and `fcntl` say, and what `io_pollline2` finds until the stream is
closed or fails. -/
structure Stdin where
  isatty : Bool := false
  valid : Bool := true
  reading : Reading
  closed : Bool := false
deriving DecidableEq

/-- `fetch_stdin_state_init`. -/
def fetchStdinStateInit (fctx : Ctx) (d : Stdin) : FetchCode × Ctx × Stdin :=
  if d.isatty ∨ d.valid = false then (.error, fctx, d)
  else (.again, { fctx with state := .mail }, d)

/-- The loop of `fetch_stdin_state_mail`; none for `goto error`. -/
def readMail (maxSize : ℕ) (error : Option (List Char)) (m : Mail Unit) :
    List (List Char) → Option (Mail Unit)
  | [] => if error.isSome then none else some m
  | line :: lines =>
    let m := m.appendLine (cString line)
    if maxSize < m.size then some m else readMail maxSize error m lines

/-- `fetch_stdin_state_mail`. -/
def fetchStdinStateMail (conf : Conf) (fctx : Ctx) (d : Stdin) : FetchCode × Ctx × Stdin :=
  let m := { fctx.mail with data := [] }
  match readMail conf.maxSize d.reading.error m d.reading.lines with
  | none => (.error, fctx, d)
  | some m => (.mail, { fctx with state := .exit, mail := m }, d)

/-- `fetch_stdin_state_exit`. -/
def fetchStdinStateExit (fctx : Ctx) (d : Stdin) : FetchCode × Ctx × Stdin :=
  (.exit, fctx, { d with closed := true })

/-- `fetch_stdin`. -/
def fetchStdin (conf : Conf) : Fetcher Stdin State Unit Empty where
  first := .init
  state fctx d :=
    match fctx.state with
    | .init => fetchStdinStateInit fctx d
    | .mail => fetchStdinStateMail conf fctx d
    | .exit => fetchStdinStateExit fctx d
  -- there is no `commit` to be called
  commit m d := (.again, m, d)
  abort d := { d with closed := true }
  auxfree _ d := d
  input i := i.elim

/-! ## The text -/

/-- The lines, each up to its first NUL. -/
def text (lines : List (List Char)) : List Char := joined ioLf (lines.map cString) []

/-- Either the loop breaks at a mail that is too big, or the mail has all the lines. -/
theorem readMail_spec {maxSize : ℕ} {error : Option (List Char)} {m m' : Mail Unit}
    {lines : List (List Char)} (h : readMail maxSize error m lines = some m') :
    (maxSize < m'.size ∧ m'.data <+: m.data ++ text lines) ∨
      error = none ∧ m' = { m with data := m.data ++ text lines } := by
  -- the mail grows while the lines are read, so that the induction is over all mails
  induction lines generalizing m with
  | nil =>
    unfold readMail at h
    split_ifs at h with herror
    obtain rfl := Option.some.inj h
    exact .inr ⟨by simpa using herror, by simp [text]⟩
  | cons line lines ih =>
    have htext : m.data ++ text (line :: lines) =
        (m.appendLine (cString line)).data ++ text lines := by
      simp [text, Mail.appendLine, ioLf]
    rw [htext]
    unfold readMail at h
    dsimp only at h
    split_ifs at h with hbig
    · obtain rfl := Option.some.inj h
      exact .inl ⟨hbig, List.prefix_append _ _⟩
    · exact ih h

/-- What is on the queue when all lines have been read. -/
def queued (data : List Char) : Mail Unit :=
  { ({ data := data } : Mail Unit).withBody.trimFrom with decision := .drop }

/-! ## Runs -/

/-- The mails that have been taken off standard input, but for one that was too big. -/
def taken (l : Loop Stdin State Unit) : ℕ := l.queue.length + l.dropped + l.kept

/-- Before the mail has been read nothing has been taken; behind it, the mail. -/
structure Inv (conf : Conf) (r : Reading) (l : Loop Stdin State Unit) : Prop where
  reading : l.data.reading = r
  fresh : l.fctx.mail = {}
  before : l.fctx.state ≠ .exit → taken l = 0 ∧ l.complete = false
  queue : ∀ m ∈ l.queue, r.error = none ∧ m = queued (text r.lines)
  once : taken l ≤ 1
  behind : l.fctx.state = .exit → l.aborted = false →
    taken l = 1 ∨ (conf.maxSize < (text r.lines).length ∧ conf.delBig = true)

section

variable {conf : Conf} {r : Reading} {l l' : Loop Stdin State Unit}

/-- Nothing that the invariant is about changes. -/
theorem Inv.move (h : Inv conf r l) (hdata : l'.data.reading = l.data.reading)
    (hstate : l'.fctx.state = l.fctx.state) (hmail : l'.fctx.mail = l.fctx.mail)
    (hqueue : l'.queue = l.queue) (htaken : taken l' = taken l)
    (hcomplete : l'.complete = true → l.fctx.state = .exit ∨ l.complete = true)
    (haborted : l'.aborted = false → l.aborted = false) : Inv conf r l' where
  reading := hdata.trans h.reading
  fresh := hmail.trans h.fresh
  before hexit := by
    rw [hstate] at hexit
    rw [htaken]
    refine ⟨(h.before hexit).1, ?_⟩
    cases hc : l'.complete with
    | false => rfl
    | true =>
      rcases hcomplete hc with hst | hc'
      · exact absurd hst hexit
      · exact absurd (hc'.symm.trans (h.before hexit).2) nofun
  queue m hm := h.queue m (hqueue ▸ hm)
  once := htaken ▸ h.once
  behind hexit halive := htaken ▸ h.behind (hstate ▸ hexit) (haborted halive)

theorem Inv.abort (h : Inv conf r l) : Inv conf r (l.abort (fetchStdin conf)) := by
  refine h.move ?_ rfl rfl rfl rfl .inr nofun
  show (l.queue.foldl (fun d _ => d) { l.data with closed := true }).reading = _
  rw [List.foldl_fixed]

theorem Inv.purge (h : Inv conf r l) : Inv conf r (l.purge conf) := by
  unfold Loop.purge
  split_ifs
  · exact h
  · exact h.move rfl rfl rfl rfl rfl .inr id
  · exact h.move rfl rfl rfl rfl rfl .inr id

theorem Inv.hold (h : Inv conf r l) : Inv conf r (l.hold conf) := by
  unfold Loop.hold
  split_ifs
  · exact h.move rfl rfl rfl rfl rfl .inr id
  · exact h.move rfl rfl rfl rfl rfl .inr id
  · exact h

/-- The mail has been read, and is put on the queue. -/
theorem inv_enqueue (hreading : l.data.reading = r) (hfresh : l.fctx.mail = {})
    (hexit : l.fctx.state = .exit) (hbefore : taken l = 0) {m : Mail Unit}
    (hm : readMail conf.maxSize r.error {} r.lines = some m) :
    Inv conf r (l.enqueue (fetchStdin conf) conf m) := by
  have hqueue : l.queue = [] := List.eq_nil_of_length_eq_zero (by unfold taken at hbefore; omega)
  have haborted : Inv conf r { l with aborted := true } :=
    { reading := hreading
      fresh := hfresh
      before := fun hne => absurd hexit hne
      queue := fun m hm => by rw [hqueue] at hm; cases hm
      once := by show taken l ≤ 1; omega
      behind := nofun }
  have habort : Inv conf r (l.abort (fetchStdin conf)) := by
    have hleft := haborted.abort
    exact hleft.move rfl rfl rfl rfl rfl .inr nofun
  unfold Loop.enqueue
  -- `readMail` stops behind the line that is too much, so that the size tells which it was
  by_cases hbig : conf.maxSize < m.size
  · rw [if_pos hbig]
    cases hdel : conf.delBig with
    | false => exact habort
    | true =>
      refine ⟨hreading, hfresh, fun hne => absurd hexit hne, ?_, ?_, fun _ _ => .inr ⟨?_, hdel⟩⟩
      · exact fun m hm => haborted.queue m hm
      · show taken l ≤ 1
        omega
      · rcases readMail_spec hm with ⟨-, hprefix⟩ | ⟨-, rfl⟩
        · have hlen := hprefix.length_le
          unfold Mail.size at hbig
          rw [List.nil_append] at hlen
          omega
        · exact hbig
  · rw [if_neg hbig]
    split_ifs
    · exact habort
    · obtain ⟨hbig', -⟩ | ⟨herror, rfl⟩ := readMail_spec hm
      · exact absurd hbig' hbig
      · have htaken : ∀ m : Mail Unit, taken { l with queue := l.queue ++ [m] } = 1 := by
          intro m
          unfold taken at hbefore ⊢
          rw [List.length_append, List.length_singleton]
          dsimp only
          omega
        refine ⟨hreading, hfresh, fun hne => absurd hexit hne, ?_, (htaken _).le,
          fun _ _ => .inl (htaken _)⟩
        intro m hm
        dsimp only at hm
        rw [hqueue] at hm
        obtain rfl := List.mem_singleton.mp hm
        exact ⟨herror, rfl⟩

/-- A call of the fetcher keeps the invariant. -/
theorem inv_call (h : Inv conf r l) : Inv conf r (l.call (fetchStdin conf) conf) := by
  unfold Loop.call
  cases hstate : l.fctx.state with
  | init =>
    have hcall : (fetchStdin conf).state l.fctx l.data = fetchStdinStateInit l.fctx l.data := by
      simp only [fetchStdin, hstate]
    have hbefore := h.before (by rw [hstate]; exact nofun)
    rw [hcall]
    unfold fetchStdinStateInit
    split_ifs
    · exact h.abort
    · exact ⟨h.reading, h.fresh, fun _ => hbefore, h.queue, h.once, nofun⟩
  | mail =>
    have hcall : (fetchStdin conf).state l.fctx l.data =
        fetchStdinStateMail conf l.fctx l.data := by
      simp only [fetchStdin, hstate]
    have hbefore := h.before (by rw [hstate]; exact nofun)
    rw [hcall]
    unfold fetchStdinStateMail
    rw [h.fresh, h.reading]
    dsimp only
    cases hread : readMail conf.maxSize r.error {} r.lines with
    | none => exact h.abort
    | some m =>
      refine inv_enqueue ?_ rfl rfl ?_ hread
      · exact h.reading
      · exact hbefore.1
  | exit =>
    have hcall : (fetchStdin conf).state l.fctx l.data = fetchStdinStateExit l.fctx l.data := by
      simp only [fetchStdin, hstate]
    rw [hcall]
    exact h.move rfl rfl rfl rfl rfl (fun _ => .inl hstate) id

/-- So does a mail that leaves the queue. -/
theorem inv_dequeue (h : Inv conf r l) (halive : l.aborted = false) {n : ℕ} {m : Mail Unit}
    (hn : l.queue[n]? = some m) (dec : Decision) :
    Inv conf r (l.dequeue (fetchStdin conf) conf n m dec) := by
  obtain ⟨hlt, -⟩ := List.getElem?_eq_some_iff.mp hn
  -- a mail has been taken, so that the state is the last one
  have hexit : l.fctx.state = .exit := by
    by_contra hne
    have hbefore := (h.before hne).1
    unfold taken at hbefore
    omega
  have htaken : taken (l.dequeue (fetchStdin conf) conf n m dec) = taken l := by
    unfold Loop.dequeue
    dsimp only [fetchStdin]
    generalize (if conf.keepAll then Decision.keep else dec) = dec'
    unfold taken
    cases dec' with
    | drop =>
      dsimp only [Loop.count]
      rw [List.length_eraseIdx_of_lt hlt]
      omega
    | keep =>
      dsimp only [Loop.count]
      rw [List.length_eraseIdx_of_lt hlt]
      omega
  have hsame : ∀ (l : Loop Stdin State Unit) (dec : Decision),
      (l.count dec).data = l.data ∧ (l.count dec).fctx = l.fctx ∧ (l.count dec).queue = l.queue := by
    intro l dec
    cases dec <;> exact ⟨rfl, rfl, rfl⟩
  have hleft : (l.dequeue (fetchStdin conf) conf n m dec).data = l.data ∧
      (l.dequeue (fetchStdin conf) conf n m dec).fctx = l.fctx ∧
      (l.dequeue (fetchStdin conf) conf n m dec).queue = l.queue.eraseIdx n := hsame _ _
  obtain ⟨hdata, hfctx, hqueue⟩ := hleft
  refine ⟨?_, ?_, ?_, ?_, htaken ▸ h.once, fun _ _ => htaken ▸ h.behind hexit halive⟩
  · rw [hdata]
    exact h.reading
  · rw [hfctx]
    exact h.fresh
  · intro hne
    rw [hfctx] at hne
    exact absurd hexit hne
  · intro x hx
    rw [hqueue] at hx
    exact h.queue x (List.mem_of_mem_eraseIdx hx)

theorem inv_step (h : Inv conf r l) {a : Act Empty}
    (hs : Fetch.step (fetchStdin conf) conf l a = some l') : Inv conf r l' := by
  cases a with
  | input i => exact i.elim
  | pass =>
    dsimp only [Fetch.step] at hs
    split_ifs at hs
    obtain rfl := Option.some.inj hs
    unfold Loop.pass
    split_ifs
    · have hready : Inv conf r ((l.purge conf).hold conf).markEmpty :=
        h.purge.hold.move rfl rfl rfl rfl rfl .inr id
      exact inv_call hready
    · exact h.purge.hold
  | dequeue n dec =>
    dsimp only [Fetch.step] at hs
    split_ifs at hs with hended
    obtain ⟨m, hn, rfl⟩ := Option.map_eq_some_iff.mp hs
    have halive : l.aborted = false := by
      simp only [Loop.ended, Bool.or_eq_true, not_or] at hended
      exact Bool.eq_false_iff.mpr hended.1
    exact inv_dequeue h halive hn dec
  | fail =>
    dsimp only [Fetch.step] at hs
    split_ifs at hs
    obtain rfl := Option.some.inj hs
    exact h.abort

/-- Nothing has been read at first. -/
theorem inv_start (flags : FetchFlags) (d : Stdin) :
    Inv conf d.reading (Fetch.start (fetchStdin conf) flags d) where
  reading := rfl
  fresh := rfl
  before _ := ⟨rfl, rfl⟩
  queue _ := nofun
  once := Nat.zero_le 1
  behind := nofun

end

/-! ## Streams -/

/-- A stream, and a newline behind it when there is none at its end. -/
def closed (s : List Char) : List Char :=
  if s = [] ∨ s.getLast? = some '\n' then s else s ++ ['\n']

end Fdm.FetchStdin

import Fdm.Command.Defs
import Fdm.Io.Readline
import Fdm.Lib.Lines
import Fdm.Lib.Strchr
import Mathlib.Data.List.Infix
import Mathlib.Data.List.TakeWhile

/-!
# From a pipe to lines

One stream of a child, from what the child writes to the lines that `cmd_poll` returns.

* `outputLines` is what should be returned for an output, `Fits` what an output has to be for
  that: no NUL, and no line of `IO_MAXLINELEN` bytes;
* `Flow` says where what has been written is: returned, in the buffer of the io, or in the pipe.
-/

namespace Fdm.Command

open Lib.Lines Lib.Intake Io
open Lib.Strchr (takeWhile_ne_self)

/-! ## Lines of an output -/

/-- A line without its newline, and then without a CR at the end. -/
def lineText (l : List Char) : List Char :=
  stripCr (if l.getLast? = some '\n' then l.dropLast else l)

/-- The lines of an output, an unterminated last one included. -/
def outputLines (s : List Char) : List (List Char) := (lines s).map lineText

/-- No NUL, and no line that is too long. -/
structure Fits (s : List Char) : Prop where
  clean : '\x00' ∉ s
  short : ∀ w, w <:+: s → '\n' ∉ w → w.length < ioMaxlinelen

/-- Parts of a string fit where it does. -/
theorem Fits.within {s t : List Char} (h : Fits t) (hs : s <:+: t) : Fits s where
  clean hmem := h.clean (hs.subset hmem)
  short w hw := h.short w (hw.trans hs)

/-- The output ends at the end of a line. -/
def Ends (s : List Char) : Prop := s = [] ∨ ∃ t, s = t ++ ['\n']

theorem Ends.newline (s : List Char) : Ends (s ++ ['\n']) := .inr ⟨s, rfl⟩

/-- Lines that have ended stay as they are. -/
theorem Ends.lines_append {s : List Char} (h : Ends s) (t : List Char) :
    lines (s ++ t) = lines s ++ lines t := by
  rcases h with rfl | ⟨s, rfl⟩
  · rfl
  · exact Lib.Lines.lines_append s t

theorem Ends.outputLines_append {s : List Char} (h : Ends s) (t : List Char) :
    outputLines (s ++ t) = outputLines s ++ outputLines t := by
  rw [outputLines, h.lines_append, List.map_append]
  rfl

/-- A line that is returned is the line of the output. -/
theorem outputLines_newline {l : List Char} (hl : '\n' ∉ l) (hnul : '\x00' ∉ l) :
    outputLines (l ++ ['\n']) = [chomp l] := by
  have hlines : lines (l ++ ['\n']) = [l ++ ['\n']] := lines_append_newline hl []
  rw [outputLines, hlines, List.map_singleton, lineText, List.getLast?_concat, if_pos rfl,
    List.dropLast_concat, chomp, takeWhile_ne_self hnul]

/-- A last line without a newline is handed out as well. -/
theorem outputLines_last {l : List Char} (hl : '\n' ∉ l) (hnul : '\x00' ∉ l) (hne : l ≠ []) :
    outputLines l = [chomp l] := by
  have hlast : l.getLast? ≠ some '\n' := fun h => hl (List.mem_of_getLast? h)
  rw [outputLines, lines_of_not_mem hl hne, List.map_singleton, lineText, if_neg hlast, chomp,
    takeWhile_ne_self hnul]

/-! ## Where the output is -/

/-- What has been written and not been returned: in the buffer, and then in the pipe. -/
def pending (io : Option Io) (p : Pipe) : List Char :=
  match io with
  | none => []
  | some io => io.rd.contents ++ p.unread

/-- What a child has written has been returned or is pending. -/
structure Flow (io : Option Io) (p : Pipe) (ds : List (List Char)) : Prop where
  split : ∃ front, p.wrote = front ++ pending io p ∧ ds = outputLines front ∧
    (Ends front ∨ pending io p = [] ∧ p.isOpen = false)
  shut : io = none → p.isOpen = false
  usable : ∀ i, io = some i → i.eol = ioLf ∧ i.error = none ∧
    (i.closed = true → p.isOpen = false ∧ p.unread = [])

variable {io : Option Io} {i : Io} {p : Pipe} {ds : List (List Char)}

/-- The child writes more. -/
theorem Flow.write (h : Flow io p ds) (s : List Char) : Flow io (p.write s) ds := by
  unfold Pipe.write
  by_cases hopen : p.isOpen = true
  · rw [if_pos hopen]
    cases io with
    | none => exact absurd (h.shut rfl) (by simp [hopen])
    | some i =>
      obtain ⟨front, hwrote, hds, hends⟩ := h.split
      refine ⟨⟨front, ?_, hds, .inl ?_⟩, nofun, ?_⟩
      · simp only [hwrote, pending, List.append_assoc]
      · rcases hends with hends | hends
        · exact hends
        · exact absurd hends.2 (by simp [hopen])
      · intro j hj
        have huse := h.usable j hj
        refine ⟨huse.1, huse.2.1, fun hclosed => ?_⟩
        exact absurd (huse.2.2 hclosed).1 (by simp [hopen])
  · rw [if_neg hopen]
    exact h

/-- The child closes its end. -/
theorem Flow.close (h : Flow io p ds) : Flow io p.close ds where
  split := by
    obtain ⟨front, hwrote, hds, hends⟩ := h.split
    exact ⟨front, hwrote, hds, hends.imp_right fun hrest => ⟨hrest.1, rfl⟩⟩
  shut _ := rfl
  usable j hj := ⟨(h.usable j hj).1, (h.usable j hj).2.1,
    fun hclosed => ⟨rfl, ((h.usable j hj).2.2 hclosed).2⟩⟩

/-- An io that is closed and empty can be freed. -/
theorem Flow.free (h : Flow (some i) p ds) (hclosed : i.closed = true) (hsize : i.rd.size = 0) :
    Flow none p ds := by
  have hshut := (h.usable i rfl).2.2 hclosed
  have hempty : i.rd.contents = [] := by
    rw [← List.length_eq_zero_iff, Buffer.length_contents, hsize]
  obtain ⟨front, hwrote, hds, -⟩ := h.split
  rw [pending, hempty, hshut.2, List.append_nil, List.append_nil] at hwrote
  refine ⟨⟨front, ?_, hds, .inr ⟨rfl, hshut.1⟩⟩, fun _ => hshut.1, nofun⟩
  rw [hwrote]
  exact (List.append_nil front).symm

/-! ## Polling -/

/-- What the events of a pipe still say when it is read. -/
structure Told (r : Revents) (p : Pipe) : Prop where
  noError : r.pollerr = false ∧ r.pollnval = false
  hangup : r.pollhup = true → p.isOpen = false ∧ (r.pollin = false → p.unread = [])

/-- What `poll` shows is so. -/
theorem told_of_shows {r : Revents} (h : p.shows r = true) : Told r p := by
  unfold Pipe.shows at h
  simp only [Bool.and_eq_true, Bool.not_eq_true', Bool.or_eq_true] at h
  refine ⟨h.1.1, fun hhup => ?_⟩
  have hshut : p.isOpen = false := by
    rcases h.1.2 with hno | hshut
    · exact absurd hhup (by simp [hno])
    · exact hshut
  refine ⟨hshut, fun hin => ?_⟩
  by_contra hunread
  rw [if_pos hunread] at h
  exact absurd h.2 (by simp [hin])

/-- It stays so when the child writes more. -/
theorem Told.write {r : Revents} (h : Told r p) (s : List Char) : Told r (p.write s) := by
  refine ⟨h.noError, fun hhup => ?_⟩
  rw [Pipe.write, if_neg (by simp [(h.hangup hhup).1])]
  exact h.hangup hhup

theorem Told.close {r : Revents} (h : Told r p) : Told r p.close :=
  ⟨h.noError, fun hhup => ⟨rfl, (h.hangup hhup).2⟩⟩

/-- An io behind `io_after_poll`: bytes have gone from the pipe to the buffer, and if it is
closed there are no more. -/
structure Polls (i : Io) (p : Pipe) (i' : Io) (p' : Pipe) : Prop where
  eol : i'.eol = i.eol
  error : i'.error = none
  bytes : i'.rd.contents ++ p'.unread = i.rd.contents ++ p.unread
  wrote : p'.wrote = p.wrote
  isOpen : p'.isOpen = p.isOpen
  closed : i'.closed = true → p'.isOpen = false ∧ p'.unread = []

theorem Polls.refl (herror : i.error = none) (hopen : i.closed = false) : Polls i p i p :=
  ⟨rfl, herror, rfl, rfl, rfl, fun h => absurd h (by simp [hopen])⟩

/-- Bytes are taken from the pipe, or its end is seen. -/
theorem afterPoll_spec (herror : i.error = none) (hopen : i.closed = false) {r : Revents}
    {reads : Reads} (htold : Told r p) (hreads : ∀ cause, reads.behind ≠ .failure cause) {i' : Io}
    {p' : Pipe} (hpoll : afterPoll i r p reads = some (i', p')) : Polls i p i' p' := by
  unfold afterPoll at hpoll
  rw [htold.noError.1, htold.noError.2, Bool.false_or, Bool.false_or] at hpoll
  by_cases hhup : (r.pollhup && !r.pollin) = true
  · rw [if_pos hhup] at hpoll
    simp only [Bool.and_eq_true, Bool.not_eq_true'] at hhup
    have hend := htold.hangup hhup.1
    cases hpoll
    exact ⟨rfl, herror, rfl, rfl, rfl, fun _ => ⟨hend.1, hend.2 hhup.2⟩⟩
  rw [if_neg hhup] at hpoll
  by_cases hin : r.pollin = true
  · rw [if_pos hin] at hpoll
    by_cases hpossible : reads.possible p = false
    · rw [if_pos hpossible] at hpoll
      cases hpoll
    rw [if_neg hpossible] at hpoll
    rw [Bool.not_eq_false, Reads.possible, Bool.and_eq_true, List.isPrefixOf_iff_prefix,
      Bool.or_eq_true] at hpossible
    obtain ⟨j, hfill, hsame, herror', hcontents⟩ :=
      fill_spec i reads.ready reads.behind hreads (Nat.lt_succ_self _)
    have hbytes : j.rd.contents ++ p.unread.drop reads.ready.length
        = i.rd.contents ++ p.unread := by
      obtain ⟨more, hmore⟩ := hpossible.1
      rw [hcontents, ← hmore, List.drop_left, List.append_assoc]
    rw [hfill] at hpoll
    simp only [Option.bind_eq_bind, Option.bind_some, Option.some.injEq, Prod.mk.injEq] at hpoll
    obtain ⟨hi, hp⟩ := hpoll
    subst hp
    by_cases hend : filled reads.behind = .closed
    · -- the end was found, so everything has been read
      have heof : reads.behind = .eof := by
        cases hbehind : reads.behind <;> rw [hbehind] at hend <;> first | rfl | cases hend
      rw [if_pos hend] at hi
      subst hi
      have hall : p.isOpen = false ∧ reads.ready = p.unread := by
        rcases hpossible.2 with hne | hall
        · rw [heof] at hne
          exact absurd hne (by decide)
        · simpa using hall
      refine ⟨hsame.eol, herror'.trans herror, hbytes, rfl, rfl, fun _ => ⟨hall.1, ?_⟩⟩
      show p.unread.drop reads.ready.length = []
      rw [hall.2, List.drop_length]
    · rw [if_neg hend] at hi
      subst hi
      refine ⟨hsame.eol, herror'.trans herror, hbytes, rfl, rfl, fun hclosed => ?_⟩
      rw [hsame.closed] at hclosed
      exact absurd hclosed (by simp [hopen])
  · rw [if_neg hin] at hpoll
    cases hpoll
    exact .refl herror hopen

/-- Bytes that are taken from the pipe are in the buffer. -/
theorem Flow.poll (h : Flow (some i) p ds) {i' : Io} {p' : Pipe} (hpolls : Polls i p i' p') :
    Flow (some i') p' ds where
  split := by
    obtain ⟨front, hwrote, hds, hends⟩ := h.split
    refine ⟨front, ?_, hds, ?_⟩
    · rw [hpolls.wrote, hwrote, pending, pending, hpolls.bytes]
    · rw [pending, hpolls.bytes, hpolls.isOpen]
      exact hends
  shut := nofun
  usable j hj := by
    obtain rfl := Option.some_inj.mp hj
    exact ⟨hpolls.eol.trans (h.usable i rfl).1, hpolls.error, hpolls.closed⟩

/-! ## Reading a line -/

/-- The next line has been returned, or there is none yet. -/
structure Returns (i : Io) (p : Pipe) (ds : List (List Char)) (line : Option (List Char))
    (i' : Io) : Prop where
  flow : Flow (some i') p (ds ++ (line.map chomp).toList)
  closed : i'.closed = i.closed
  same : line = none → i' = i
  fewer : line.isSome = true →
    (lines (pending (some i') p)).length < (lines (pending (some i) p)).length
  some : i.closed = true → i.rd.size ≠ 0 → line.isSome = true

/-- What is in the buffer begins with a line. -/
theorem Flow.ends (h : Flow (some i) p ds) (hne : i.rd.contents ≠ []) :
    ∃ front, p.wrote = front ++ (i.rd.contents ++ p.unread) ∧ ds = outputLines front ∧
      Ends front := by
  obtain ⟨front, hwrote, hds, hends⟩ := h.split
  refine ⟨front, hwrote, hds, ?_⟩
  rcases hends with hends | hends
  · exact hends
  · exact absurd (List.append_eq_nil_iff.mp hends.1).1 hne

/-- A terminated line is taken off the front. -/
theorem Flow.returns_line (h : Flow (some i) p ds) (hfits : Fits p.wrote) {l rest : List Char}
    (hcontents : i.rd.contents = l ++ ['\n'] ++ rest) (hl : '\n' ∉ l) {i' : Io}
    (hsame : Same i i') (herror : i'.error = none) (hrest : i'.rd.contents = rest) :
    Returns i p ds (some l) i' := by
  have hne : i.rd.contents ≠ [] := by simp [hcontents]
  obtain ⟨front, hwrote, hds, hends⟩ := h.ends hne
  have hwrote' : p.wrote = front ++ (l ++ ['\n']) ++ (i'.rd.contents ++ p.unread) := by
    rw [hwrote, hcontents, hrest]
    simp only [List.append_assoc]
  have hnul : '\x00' ∉ l := by
    intro hmem
    apply hfits.clean
    rw [hwrote']
    simp [hmem]
  have huse := h.usable i rfl
  refine ⟨⟨⟨front ++ (l ++ ['\n']), hwrote', ?_, .inl ?_⟩, nofun, ?_⟩, hsame.closed, nofun, ?_,
    fun _ _ => rfl⟩
  · rw [hends.outputLines_append, outputLines_newline hl hnul, hds]
    rfl
  · rw [← List.append_assoc]
    exact .newline _
  · intro j hj
    obtain rfl := Option.some_inj.mp hj
    rw [hsame.closed]
    exact ⟨hsame.eol.trans huse.1, herror, huse.2.2⟩
  · intro _
    have hlines : lines (i.rd.contents ++ p.unread)
        = (l ++ ['\n']) :: lines (i'.rd.contents ++ p.unread) := by
      rw [hcontents, hrest, List.append_assoc, List.append_assoc]
      exact lines_append_newline hl _
    rw [pending, pending, hlines, List.length_cons]
    exact Nat.lt_succ_self _

/-- What is left at the end is a line. -/
theorem Flow.returns_last (h : Flow (some i) p ds) (hfits : Fits p.wrote)
    (hclosed : i.closed = true) (hclean : '\n' ∉ i.rd.contents) (hne : i.rd.contents ≠ []) {i' : Io}
    (hsame : Same i i') (herror : i'.error = none) (hrest : i'.rd.contents = []) :
    Returns i p ds (some i.rd.contents) i' := by
  obtain ⟨front, hwrote, hds, hends⟩ := h.ends hne
  have huse := h.usable i rfl
  have hshut := huse.2.2 hclosed
  rw [hshut.2, List.append_nil] at hwrote
  have hempty : pending (some i') p = [] := by rw [pending, hrest, hshut.2, List.append_nil]
  have hnul : '\x00' ∉ i.rd.contents := by
    intro hmem
    apply hfits.clean
    rw [hwrote]
    exact List.mem_append_right front hmem
  refine ⟨⟨⟨p.wrote, ?_, ?_, .inr ⟨hempty, hshut.1⟩⟩, nofun, ?_⟩, hsame.closed, nofun, ?_,
    fun _ _ => rfl⟩
  · rw [hempty, List.append_nil]
  · rw [hwrote, hends.outputLines_append, outputLines_last hclean hnul hne, hds]
    rfl
  · intro j hj
    obtain rfl := Option.some_inj.mp hj
    rw [hsame.closed]
    exact ⟨hsame.eol.trans huse.1, herror, huse.2.2⟩
  · intro _
    rw [hempty, pending, hshut.2, List.append_nil, lines_of_not_mem hclean hne]
    exact Nat.one_pos

theorem not_mem_of_absent {c : Char} {s : List Char} (h : ¬ [c] <:+: s) : c ∉ s :=
  fun hmem => h ((List.singleton_infix_iff c s).mpr hmem)

/-- `io_readline2` on a stream whose output fits. -/
theorem Flow.returns (h : Flow (some i) p ds) (hfits : Fits p.wrote) {line : Option (List Char)}
    {i' : Io} (hread : i.readline2 = some (line, i')) : Returns i p ds line i' := by
  obtain ⟨heol, herror, hshut⟩ := h.usable i rfl
  have hEol : Eol i.eol := .inl heol
  cases hcut : (cutter i.eol hEol).cut i.rd.contents with
  | some q =>
    obtain ⟨l, rest⟩ := q
    have hparts := cut_terminated_some hcut
    obtain ⟨j, hline, hsame, herror', hrest⟩ := readline2_line hEol herror hcut
    rw [hline] at hread
    cases hread
    rw [heol] at hparts
    exact h.returns_line hfits hparts.1 (not_mem_of_absent hparts.2.1) hsame herror' hrest
  | none =>
    have habsent := cut_terminated_none hcut
    rw [heol] at habsent
    have hclean := not_mem_of_absent habsent
    obtain ⟨front, hwrote, -, -⟩ := h.split
    -- no newline within the limit would be a line that is too long
    have hmax : i.rd.size < ioMaxlinelen := by
      by_contra hlong
      have hinfix : i.rd.contents.take ioMaxlinelen <:+: p.wrote := by
        rw [hwrote, pending]
        exact ((List.take_prefix _ _).isInfix.trans (List.prefix_append _ _).isInfix).trans
          (List.suffix_append _ _).isInfix
      have hshort := hfits.short _ hinfix hclean
      rw [List.length_take, Buffer.length_contents] at hshort
      omega
    rw [List.take_of_length_le (by rw [Buffer.length_contents]; omega)] at hclean
    by_cases hlast : i.closed = true ∧ i.rd.size ≠ 0
    · have hsize : i.eol.length ≤ i.rd.size := by
        rw [heol]
        show 1 ≤ i.rd.size
        omega
      have hne : i.rd.contents ≠ [] := by
        rw [← List.length_pos_iff, Buffer.length_contents]
        omega
      obtain ⟨j, hline, hsame, herror', hrest⟩ :=
        readline2_last hEol herror hcut hmax hlast.1 hsize
      rw [hline] at hread
      cases hread
      exact h.returns_last hfits hlast.1 hclean hne hsame herror' hrest
    · have hopen : i.closed = false ∨ i.rd.size < i.eol.length := by
        rw [heol]
        show i.closed = false ∨ i.rd.size < 1
        by_cases hclosed : i.closed = true
        · have hempty : i.rd.size = 0 := not_not.mp fun hsize => hlast ⟨hclosed, hsize⟩
          exact .inr (by omega)
        · exact .inl (Bool.eq_false_iff.mpr hclosed)
      rw [readline2_wait hEol herror hcut hmax hopen] at hread
      cases hread
      refine ⟨?_, rfl, fun _ => rfl, nofun, fun hclosed hsize => absurd ⟨hclosed, hsize⟩ hlast⟩
      rw [Option.map_none, Option.toList_none, List.append_nil]
      exact h

end Fdm.Command

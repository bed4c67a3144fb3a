import Fdm.Lex.Quoted
import Fdm.Xmalloc

/-!
# Strings in memory

`read_string` with the buffer that it writes to. A character is written first and room for the next
one is made then; for a macro room is made first. The texts are those of `Quoted`.
-/

namespace Fdm.Lex

open Lib.Memory Fdm.Xmalloc

/-! ## The code -/

/-- Why there is no string: what ends the program, or `yyerror`. -/
inductive Halt
  | stop (e : Stop)
  | error (e : LexError)
deriving DecidableEq, Repr

/-- `buf`, `len` and `pos`. -/
structure Out where
  buf : List Char
  len : UInt64
  pos : UInt64
deriving DecidableEq, Repr

section

variable (c : Libc) (find : Macros)

/-- `buf[pos++] = ch` and `ENSURE_SIZE`. -/
def putChar (o : Out) (ch : Char) : Except Stop Out :=
  (store o.buf o.pos [ch]).bind fun buf =>
    let pos := o.pos + 1
    (ensureSize c buf o.len 1 pos).map fun r => ⟨r.1, r.2, pos⟩

/-- `ENSURE_FOR` and `memcpy` of the text of a macro. -/
def putValue (o : Out) (s : List Char) : Except Stop Out :=
  let slen := UInt64.ofNat s.length
  (ensureFor c o.buf o.len o.pos (slen + 1)).bind fun r =>
    (store r.1 o.pos s).map fun buf => ⟨buf, r.2, o.pos + slen⟩

/-- Go on behind a write. -/
def goOn (r : Except Stop Out) (k : Out → Except Halt (List Char × List Char)) :
    Except Halt (List Char × List Char) :=
  match r with
  | .error e => .error (.stop e)
  | .ok o => k o

/-- Go on behind the name of a macro. -/
def copyMacro (o : Out) (name : List Char) (k : Out → Except Halt (List Char × List Char)) :
    Except Halt (List Char × List Char) :=
  match find name with
  | none => k o
  | some m => goOn (putValue c o (expand (some m))) k

/-- `buf[pos] = '\0'`. -/
def finish (o : Out) (cs : List Char) : Except Halt (List Char × List Char) :=
  match store o.buf o.pos ['\x00'] with
  | .error e => .error (.stop e)
  | .ok buf => .ok (buf, cs)

/-- The loop of `read_string`: the block, and the rest of the text. -/
def readStringMem (endch : Char) (esc : Bool) :
    ℕ → Out → List Char → Except Halt (List Char × List Char)
  | 0, _, _ => .error (.error (.missing endch))
  | _, _, [] => .error (.error (.missing endch))
  | n + 1, o, ch :: cs =>
    let add (ch : Char) (cs : List Char) : Except Halt (List Char × List Char) :=
      goOn (putChar c o ch) fun o => readStringMem endch esc n o cs
    if ch = endch then finish o cs
    else if ch = '\\' && esc then
      match cs with
      | [] => .error (.error (.missing endch))
      | ch :: cs => add (escape ch) cs
    else if (ch = '$' || ch = '%') && esc then
      match cs with
      | [] => .error (.error (.missing endch))
      | '{' :: cs =>
        match readMacro ch '{' cs with
        | .error e => .error (.error e)
        | .ok (name, cs) => copyMacro c find o name fun o => readStringMem endch esc n o cs
      | cs => add ch cs
    else add ch cs

/-- `read_string`, from the first quote. -/
def readQuotedMem (quote : Char) (cs : List Char) : Except Halt (List Char × List Char) :=
  match xmalloc c (24 + 1) with
  | .error e => .error (.stop e)
  | .ok buf => readStringMem c find quote (quote = '"') cs.length ⟨buf, 24, 0⟩ cs

end

/-! ## Writing -/

/-- What has been read stands at the front of the block, and there is room for one byte more. -/
structure Holds (o : Out) (acc : List Char) : Prop where
  text : At o.buf 0 acc
  pos : o.pos.toNat = acc.length
  lt : acc.length < o.len.toNat
  room : o.len.toNat ≤ o.buf.length

section

variable {c : Libc} {o : Out} {acc : List Char}

theorem holds_begin {buf : List Char} (h : xmalloc c (24 + 1) = .ok buf) :
    Holds ⟨buf, 24, 0⟩ [] := by
  have hlength : buf.length = 25 := by
    unfold xmalloc at h
    split_ifs at h
    rw [← Except.ok.inj h, length_resize]
    decide
  have hlen : (24 : UInt64).toNat = 24 := by decide
  refine ⟨?_, rfl, ?_, ?_⟩
  · intro i hi
    exact absurd hi (Nat.not_lt_zero i)
  · show 0 < (24 : UInt64).toNat
    omega
  · show (24 : UInt64).toNat ≤ buf.length
    omega

/-- A write behind the text, where there is room. -/
theorem store_behind {buf : List Char} {pos : UInt64} {s : List Char} (htext : At buf 0 acc)
    (hpos : pos.toNat = acc.length) (hroom : acc.length + s.length ≤ buf.length) :
    ∃ buf', store buf pos s = .ok buf' ∧ At buf' 0 (acc ++ s) ∧ buf'.length = buf.length := by
  obtain ⟨buf', hwrite⟩ := write_of_le buf s pos.toNat (by omega)
  refine ⟨buf', by rw [store, hwrite]; rfl, ?_, length_write hwrite⟩
  rw [At.append_iff]
  refine ⟨htext.frame hwrite (Or.inl (by omega)), ?_⟩
  have hnew := At.write hwrite
  rwa [hpos, ← Nat.zero_add acc.length] at hnew

/-- The offset behind one byte more. -/
theorem toNat_succ (h : Holds o acc) : (o.pos + 1).toNat = acc.length + 1 := by
  have hlt := h.lt
  have hmax := o.len.toNat_lt
  have hpos := h.pos
  have hone : (1 : UInt64).toNat = 1 := rfl
  rw [toNat_add_of_lt (by omega), hpos, hone]

theorem putChar_spec (h : Holds o acc) (ch : Char) :
    Sound (fun o' => Holds o' (acc ++ [ch])) (putChar c o ch) := by
  have hlt := h.lt
  have hle := h.room
  obtain ⟨buf, hstore, htext, hlength⟩ :=
    store_behind (s := [ch]) h.text h.pos (by rw [List.length_singleton]; omega)
  have hpos : (o.pos + 1).toNat = (acc ++ [ch]).length := by
    rw [toNat_succ h, List.length_append, List.length_singleton]
  have hgrow := ensureSize_spec c (o.pos + 1) (by omega : 0 < o.len.toNat)
    (by omega : o.len.toNat ≤ buf.length)
  rw [putChar, hstore]
  show Sound _ ((ensureSize c buf o.len 1 (o.pos + 1)).map _)
  cases hsize : ensureSize c buf o.len 1 (o.pos + 1) with
  | error e =>
    obtain rfl := hgrow.of_error hsize
    trivial
  | ok r =>
    obtain ⟨hroom, hgrown⟩ := hgrow.of_ok hsize
    rw [hpos] at hroom
    refine ⟨?_, hpos, hroom, hgrown.room⟩
    refine hgrown.keeps _ 0 htext ?_
    rw [List.length_append, List.length_singleton]
    omega

theorem putValue_spec (h : Holds o acc) {s : List Char} (hs : s.length < 2 ^ 64) :
    Sound (fun o' => Holds o' (acc ++ s)) (putValue c o s) := by
  have hlt := h.lt
  have hslen : (UInt64.ofNat s.length).toNat = s.length := UInt64.toNat_ofNat_of_lt' hs
  have hgrow := ensureFor_spec c o.pos (UInt64.ofNat s.length + 1)
    (by omega : 0 < o.len.toNat) h.room
  rw [putValue]
  cases hfor : ensureFor c o.buf o.len o.pos (UInt64.ofNat s.length + 1) with
  | error e =>
    obtain rfl := hgrow.of_error hfor
    trivial
  | ok r =>
    obtain ⟨hadj, hroom, hgrown⟩ := hgrow.of_ok hfor
    have hmax := r.2.toNat_lt
    -- the terminator has been counted, so that it cannot have been the one too many
    have hsum : (UInt64.ofNat s.length + 1).toNat = s.length + 1 := by
      rw [UInt64.toNat_add, hslen]
      simp only [UInt64.toNat_one]
      rw [← UInt64.toNat_inj.ne, UInt64.toNat_add, hslen] at hadj
      simp only [UInt64.toNat_one, UInt64.toNat_zero] at hadj
      omega
    rw [hsum, h.pos] at hroom
    have hkept := hgrown.keeps _ 0 h.text (by omega)
    have hle := hgrown.room
    obtain ⟨buf, hstore, htext, hlength⟩ := store_behind (s := s) hkept h.pos (by omega)
    have hpos : (o.pos + UInt64.ofNat s.length).toNat = (acc ++ s).length := by
      have hadd := h.pos
      rw [toNat_add_of_lt (by omega), h.pos, hslen, List.length_append]
    show Sound _ ((store r.1 o.pos s).map _)
    rw [hstore]
    refine ⟨htext, hpos, ?_, ?_⟩
    · rw [List.length_append]
      show _ < r.2.toNat
      omega
    · show r.2.toNat ≤ buf.length
      omega

/-- With memory there is room for a text that is not as large as the address space. -/
theorem putChar_ok (hgrants : ∀ n, c.grants n = true) (h : Holds o acc) (ch : Char)
    (hsmall : acc.length + 1 < 2 ^ 62) : ∃ o', putChar c o ch = .ok o' := by
  have hlt := h.lt
  have hle := h.room
  obtain ⟨buf, hstore, -, -⟩ :=
    store_behind (s := [ch]) h.text h.pos (by rw [List.length_singleton]; omega)
  have hpos := toNat_succ h
  have hne : o.pos + 1 ≠ 0 := by
    intro hzero
    rw [hzero] at hpos
    cases hpos
  obtain ⟨r, hr⟩ := ensureSize_ok hgrants buf (by omega : 0 < o.len.toNat) hne (by omega)
  rw [putChar, hstore]
  show ∃ o', (ensureSize c buf o.len 1 (o.pos + 1)).map _ = .ok o'
  rw [hr]
  exact ⟨_, rfl⟩

theorem putValue_ok (hgrants : ∀ n, c.grants n = true) (h : Holds o acc) {s : List Char}
    (hsmall : acc.length + s.length < 2 ^ 62) : ∃ o', putValue c o s = .ok o' := by
  have hlt := h.lt
  have hsum : (UInt64.ofNat s.length + 1).toNat = s.length + 1 := by
    rw [UInt64.toNat_add, UInt64.toNat_ofNat_of_lt' (show s.length < 2 ^ 64 by omega)]
    simp only [UInt64.toNat_one]
    omega
  have hne : UInt64.ofNat s.length + 1 ≠ 0 := by
    intro hzero
    rw [hzero] at hsum
    cases hsum
  have hpos := h.pos
  obtain ⟨r, hr⟩ := ensureFor_ok hgrants o.buf (by omega : 0 < o.len.toNat) hne
    (by omega : o.pos.toNat + _ < 2 ^ 63)
  obtain ⟨-, hroom, hgrown⟩ := (ensureFor_spec c o.pos _ (by omega) h.room).of_ok hr
  have hle := hgrown.room
  obtain ⟨buf, hstore, -, -⟩ := store_behind (s := s) (hgrown.keeps _ 0 h.text (by omega)) h.pos
    (by omega)
  rw [putValue, hr]
  show ∃ o', (store r.1 o.pos s).map _ = .ok o'
  rw [hstore]
  exact ⟨_, rfl⟩

/-- The terminator is written behind the text. -/
theorem finish_spec (h : Holds o acc) (cs : List Char) :
    ∃ buf, finish o cs = .ok (buf, cs) ∧ At buf 0 (acc ++ ['\x00']) := by
  have hlt := h.lt
  have hle := h.room
  obtain ⟨buf, hstore, htext, -⟩ :=
    store_behind (s := ['\x00']) h.text h.pos (by rw [List.length_singleton]; omega)
  exact ⟨buf, by rw [finish, hstore], htext⟩

/-! ## Reading -/

/-- There is not enough memory, or the text is as large as the address space. -/
def Scarce (c : Libc) (acc : List Char) (spec : Except LexError (List Char × List Char)) : Prop :=
  (∀ n, c.grants n = true) → ∀ v rest, spec = .ok (v, rest) → 2 ^ 62 ≤ acc.length + v.length

/-- In memory the same is read, behind what has been read before; or the program ends. -/
def Agrees (c : Libc) (acc : List Char) (spec : Except LexError (List Char × List Char)) :
    Except Halt (List Char × List Char) → Prop
  | .ok r => ∃ v, spec = .ok (v, r.2) ∧ At r.1 0 (acc ++ v ++ ['\x00'])
  | .error (.error e) => spec = .error e
  | .error (.stop e) => e = .fatal ∧ Scarce c acc spec

theorem scarce_putFront {s : List Char} {spec : Except LexError (List Char × List Char)}
    (h : Scarce c (acc ++ s) spec) : Scarce c acc (putFront s spec) := by
  intro hgrants v rest hok
  obtain ⟨v', hspec, rfl⟩ := putFront_ok.1 hok
  have hlarge := h hgrants v' rest hspec
  rw [List.length_append] at hlarge ⊢
  omega

theorem agrees_goOn {r : Except Stop Out} {s : List Char}
    {k : Out → Except Halt (List Char × List Char)}
    {spec : Except LexError (List Char × List Char)} (hr : Sound (fun o' => Holds o' (acc ++ s)) r)
    (hok : (∀ n, c.grants n = true) → acc.length + s.length < 2 ^ 62 → ∃ o', r = .ok o')
    (hk : ∀ o', Holds o' (acc ++ s) → Agrees c (acc ++ s) spec (k o')) :
    Agrees c acc (putFront s spec) (goOn r k) := by
  cases r with
  | error e =>
    refine ⟨hr.of_error rfl, fun hgrants v rest hspec => ?_⟩
    obtain ⟨v', -, rfl⟩ := putFront_ok.1 hspec
    by_contra hsmall
    rw [List.length_append] at hsmall
    obtain ⟨o', ho'⟩ := hok hgrants (by omega)
    cases ho'
  | ok o' =>
    have hnext := hk o' hr
    show Agrees c acc (putFront s spec) (k o')
    cases hres : k o' with
    | ok p =>
      rw [hres] at hnext
      obtain ⟨v, rfl, hat⟩ := hnext
      refine ⟨s ++ v, rfl, ?_⟩
      rwa [← List.append_assoc acc s v]
    | error e =>
      rw [hres] at hnext
      cases e with
      | stop e => exact ⟨hnext.1, scarce_putFront hnext.2⟩
      | error e =>
        obtain rfl : spec = .error e := hnext
        rfl

/-- Each macro has a text that is somewhere in memory. -/
def Stored (find : Macros) : Prop := ∀ name, (expand (find name)).length < 2 ^ 64

/-- A macro that is there is copied, and for another one nothing is written. -/
theorem agrees_copyMacro {find : Macros} (hfind : Stored find) (h : Holds o acc) (name : List Char)
    {spec : Except LexError (List Char × List Char)}
    {k : Out → Except Halt (List Char × List Char)}
    (hk : ∀ {o' acc'}, Holds o' acc' → Agrees c acc' spec (k o')) :
    Agrees c acc (putFront (expand (find name)) spec) (copyMacro c find o name k) := by
  have hvalue := hfind name
  unfold copyMacro
  cases hm : find name with
  | none =>
    have hnone : putFront (expand none) spec = spec := by
      cases spec with
      | error e => rfl
      | ok p => rfl
    rw [hnone]
    exact hk h
  | some m =>
    rw [hm] at hvalue
    exact agrees_goOn (putValue_spec h hvalue) (fun hgrants => putValue_ok hgrants h)
      fun o' ho' => hk ho'

/-- One character of the text, in both. -/
theorem agrees_cons {find : Macros} (hfind : Stored find) (endch : Char) (esc : Bool) {n : ℕ}
    (ih : ∀ {o acc} (cs), Holds o acc →
      Agrees c acc (readString find endch esc n cs) (readStringMem c find endch esc n o cs))
    (h : Holds o acc) (ch : Char) (cs : List Char) :
    Agrees c acc (readString find endch esc (n + 1) (ch :: cs))
      (readStringMem c find endch esc (n + 1) o (ch :: cs)) := by
  have hadd : ∀ ch cs, Agrees c acc (putFront [ch] (readString find endch esc n cs))
      (goOn (putChar c o ch) fun o => readStringMem c find endch esc n o cs) :=
    fun ch cs => agrees_goOn (putChar_spec h ch) (fun hgrants => putChar_ok hgrants h ch)
      fun o' ho' => ih cs ho'
  unfold readStringMem
  dsimp only
  by_cases hend : ch = endch
  · obtain ⟨buf, hfinish, hat⟩ := finish_spec h cs
    rw [if_pos hend, hend, readString_close, hfinish]
    exact ⟨[], rfl, by rwa [List.append_nil]⟩
  · rw [if_neg hend]
    by_cases hback : (decide (ch = '\\') && esc) = true
    · rw [if_pos hback]
      simp only [Bool.and_eq_true, decide_eq_true_eq] at hback
      obtain ⟨rfl, rfl⟩ := hback
      cases cs with
      | nil =>
        rw [readString_last true _ hend]
        rfl
      | cons x cs =>
        rw [readString_back n x cs hend]
        exact hadd (escape x) cs
    · rw [if_neg hback]
      by_cases hdollar : ((decide (ch = '$') || decide (ch = '%')) && esc) = true
      · rw [if_pos hdollar]
        simp only [Bool.and_eq_true, Bool.or_eq_true, decide_eq_true_eq] at hdollar
        obtain ⟨htype, rfl⟩ := hdollar
        cases cs with
        | nil =>
          rw [readString_last true _ hend]
          rfl
        | cons x cs =>
          -- both look at the character behind it
          split
          · next heq => cases heq
          · next cs' heq =>
            obtain ⟨rfl, rfl⟩ := List.cons_eq_cons.1 heq
            rw [readString_named n cs hend htype]
            split
            · next e hnamed =>
              rw [hnamed]
              rfl
            · next name rest hnamed =>
              rw [hnamed]
              exact agrees_copyMacro hfind h name fun h' => ih rest h'
          · next hlone =>
            have hx : x ≠ '{' := fun hx => hlone cs (by rw [hx])
            rw [readString_lone n cs hend htype hx]
            exact hadd ch (x :: cs)
      · rw [if_neg hdollar, readString_plain n cs hend]
        · exact hadd ch cs
        · intro hesc
          simpa [hesc] using And.intro hback hdollar

theorem agrees_readString {find : Macros} (hfind : Stored find) (endch : Char) (esc : Bool) (n : ℕ)
    (h : Holds o acc) (cs : List Char) :
    Agrees c acc (readString find endch esc n cs) (readStringMem c find endch esc n o cs) := by
  induction n generalizing o acc cs with
  | zero =>
    unfold readString readStringMem
    rfl
  | succ n ih =>
    cases cs with
    | nil =>
      unfold readString readStringMem
      rfl
    | cons ch cs => exact agrees_cons hfind endch esc (fun cs h => ih h cs) h ch cs

/-- What is read between two quotes is in the block, with a terminator. -/
theorem agrees_readQuoted {find : Macros} (hfind : Stored find) (c : Libc) (quote : Char)
    (cs : List Char) : Agrees c [] (readQuoted find quote cs) (readQuotedMem c find quote cs) := by
  unfold readQuotedMem readQuoted
  cases hbuf : xmalloc c (24 + 1) with
  | error e =>
    unfold xmalloc at hbuf
    split_ifs at hbuf with hzero hgrants
    · exact absurd hzero (by decide)
    · refine ⟨(Except.error.inj hbuf).symm, fun hall => absurd (hall _) hgrants⟩
  | ok buf => exact agrees_readString hfind quote _ _ (holds_begin hbuf) cs

end

/-! ## The law -/

/-- Between double quotes each string can be written, with a backslash in front of the characters
that mean something, and the texts that are read are those of the grammar; between single quotes all
is taken as it is. In memory the same is read, no byte is written outside of the block, and the
program only ends for want of memory. -/
theorem readString_correct (find : Macros) :
    (∀ s rest, readQuoted find '"' (escaped s ++ '"' :: rest) = .ok (s, rest)) ∧
    (∀ cs v rest, readQuoted find '"' cs = .ok (v, rest) ↔
      ∃ t, cs = t ++ '"' :: rest ∧ Quoted find t v) ∧
    (∀ cs v rest, readQuoted find '\'' cs = .ok (v, rest) ↔ cs = v ++ '\'' :: rest ∧ '\'' ∉ v) ∧
    (Stored find → ∀ (c : Libc) quote cs,
      Agrees c [] (readQuoted find quote cs) (readQuotedMem c find quote cs)) := by
  refine ⟨fun s rest => ?_, fun cs v rest => readQuoted_double, fun cs v rest => readQuoted_single,
    fun hfind c quote cs => agrees_readQuoted hfind c quote cs⟩
  exact readQuoted_double.2 ⟨escaped s, rfl, quoted_escaped find s⟩

/-- One macro. -/
def sampleMacros : Macros := fun name =>
  if name = ['$', 'm'] then some (.string ['o', 'n', 'e']) else none

theorem stored_sampleMacros : Stored sampleMacros := by
  intro name
  unfold sampleMacros
  split_ifs <;> decide

/-- A macro that is there, one that is not, and a dollar sign, whatever memory there is. -/
theorem readString_correct_sample :
    let cs := ['a', '$', '{', 'm', '}', '%', '{', 'm', '}', '$', 'b', '"', ' ']
    readQuoted sampleMacros '"' cs = .ok (['a', 'o', 'n', 'e', '$', 'b'], [' ']) ∧
      ∀ c : Libc, Agrees c [] (readQuoted sampleMacros '"' cs)
        (readQuotedMem c sampleMacros '"' cs) :=
  ⟨by decide, fun c => (readString_correct sampleMacros).2.2.2 stored_sampleMacros c '"' _⟩

end Fdm.Lex

import Fdm.Header
import Mathlib.Tactic.IntervalCases

/-!
# The time of a mail

The functions of `mail-time.c`: `rfc822time` writes an instant as a date, `mailtime` reads
the `Date` header of a mail, and `tzlookup` looks up the name of a time zone for it.

`mailtime` reads the date as a local time and then takes off the offset of the zone, so it
finds the instant that was written only where the local zone agrees with UTC. The offset that
it takes off for the name of a zone is not the zone's either: `tzlookup` gives seconds, and
they are read as hours and minutes (`mailtime_iff`).
-/

namespace Fdm.MailTime

open Lib.Scanf Mail

variable {α : Type}

/-! ## The C library -/

/-- The value of `TZ` in the environment. -/
abbrev Env := Option (List Char)

/-- What the code uses of `struct tm`. -/
structure Tm where
  /-- The fields from `tm_sec` to `tm_year`, as the seconds they are in UTC. -/
  wall : ℤ
  gmtoff : ℤ
  zone : List Char
deriving DecidableEq, Repr

/-- The formats `"%a, %d %b %Y %H:%M:%S"` and `"%d %b %Y %H:%M:%S"`. -/
inductive Format
  | day
  | noDay
deriving DecidableEq, Repr

/-- What the C library knows of dates and time zones. -/
structure System where
  strftime : Format → ℤ → List Char
  strptime : Format → List Char → Option (ℤ × List Char)
  /-- How many seconds the local time is ahead of UTC, at an instant. -/
  offset : Env → ℤ → ℤ
  zone : Env → ℤ → List Char
  mktime : Env → ℤ → ℤ

def System.localtime (sys : System) (tz : Env) (t : ℤ) : Tm where
  wall := t + sys.offset tz t
  gmtoff := sys.offset tz t
  zone := sys.zone tz t

/-- A number below 100 as two digits. -/
def twoDigits (n : ℕ) : List Char := [Nat.digitChar (n / 10), Nat.digitChar (n % 10)]

/-- What `strftime` writes for `%z`. -/
def zoneDigits (off : ℤ) : List Char :=
  (if off < 0 then '-' else '+') ::
    (twoDigits (off.natAbs / 3600) ++ twoDigits (off.natAbs / 60 % 60))

/-! ## The functions -/

/-- `TIME_MINUTE`. -/
def timeMinute : ℤ := 60

/-- `TIME_HOUR`. -/
def timeHour : ℤ := 3600

/-- `TIME_YEAR`: twelve months of four weeks. -/
def timeYear : ℤ := 29030400

/-- `"date"`. -/
def dateHeader : List Char := ['d', 'a', 't', 'e']

/-- `rfc822time`, into a buffer of `len` bytes. -/
def rfc822time (sys : System) (tz : Env) (len : ℕ) (t : ℤ) : Option (List Char) :=
  let tm := sys.localtime tz t
  let buf := sys.strftime .day tm.wall ++ ' ' :: zoneDigits tm.gmtoff
  if len ≤ buf.length then none else some buf

/-- `tzlookup`: the offset of a zone, and the `TZ` that it leaves. -/
def tzlookup (sys : System) (tz : Env) (name : List Char) : Option ℤ × Env :=
  let tm := sys.localtime (some name) timeYear
  -- the way over `error` leaves the new zone in the environment
  if tm.zone ≠ name then (none, some name)
  else (some tm.gmtoff, tz)

/-- The seconds in an offset that is written as hours and minutes. -/
def hhmm (tz : ℤ) : ℤ := tz.tdiv 100 * timeHour + tz.tmod 100 * timeMinute

/-- An instant before the epoch is not valid. -/
def validTime (tim : ℤ) : Option ℤ := if tim < 0 then none else some tim

/-- `mailtime`: the time of the mail, and the `TZ` that is left. -/
def mailtime (sys : System) (tz : Env) (m : Mail α) : Option ℤ × Env :=
  match m.findHeader dateHeader with
  | none => (none, tz)
  | some (_, l) =>
    let hdr := headerValue dateHeader l
    if hdr = [] then (none, tz)
    else
      let ptr := (cString hdr).dropWhile isSpace
      match (sys.strptime .day ptr).or (sys.strptime .noDay ptr) with
      | none => (none, tz)
      | some (tm, endptr) =>
        let tim := sys.mktime tz tm
        let zone := (endptr.dropWhile isSpace).takeWhile (!isSpace ·)
        match strtonumBetween (-2359) 2359 zone with
        | some off => (validTime (tim - hhmm off), tz)
        | none =>
          match tzlookup sys tz zone with
          | (none, tz') => (none, tz')
          | (some off, tz') => (validTime (tim - hhmm off), tz')

/-! ## Dates in a zone -/

/-- A time zone as a date names it. -/
inductive Zone
  | offset (neg : Bool) (hours : Fin 24) (minutes : Fin 60)
  | name (z : List Char)
deriving DecidableEq, Repr

namespace Zone

def text : Zone → List Char
  | offset neg hours minutes =>
    (if neg then '-' else '+') :: (twoDigits hours ++ twoDigits minutes)
  | name z => z

/-- How many seconds the time in a zone is ahead of UTC. -/
def seconds (sys : System) : Zone → ℤ
  | offset neg hours minutes =>
    if neg then -(hours * 3600 + minutes * 60 : ℤ) else hours * 3600 + minutes * 60
  | name z => (sys.localtime (some z) timeYear).gmtoff

/-- A name the system knows: one word, not a number, and the name of the zone that it sets. -/
def Known (sys : System) : Zone → Prop
  | offset .. => True
  | name z => (∀ c ∈ z, isSpace c = false ∧ c ≠ '\x00') ∧
      strtonumBetween (-2359) 2359 z = none ∧ (sys.localtime (some z) timeYear).zone = z

/-- What `mailtime` takes off: the seconds of a named zone are taken for hours and minutes. -/
def taken (sys : System) : Zone → ℤ
  | offset neg hours minutes => (offset neg hours minutes).seconds sys
  | name z => hhmm ((name z).seconds sys)

end Zone

/-- The date of an instant in a zone. -/
def rendering (sys : System) (fmt : Format) (zone : Zone) (t : ℤ) : List Char :=
  sys.strftime fmt (t + zone.seconds sys) ++ ' ' :: zone.text

/-- `strptime` parses a date, in the format it was written in and no other. -/
structure Parses (sys : System) (fmt : Format) (wall : ℤ) : Prop where
  clean : '\x00' ∉ sys.strftime fmt wall
  parse : ∀ rest,
    sys.strptime fmt (sys.strftime fmt wall ++ ' ' :: rest) = some (wall, ' ' :: rest)
  other : fmt = .noDay → ∀ rest,
    sys.strptime .day (sys.strftime fmt wall ++ ' ' :: rest) = none

/-- `mktime` is the inverse of `localtime` at a local time. -/
def Inverse (sys : System) (tz : Env) (wall : ℤ) : Prop :=
  ∀ u, (sys.localtime tz u).wall = wall ↔ u = sys.mktime tz wall

/-- The date that `rfc822time` writes is the date of the instant in the zone it runs in. -/
theorem rfc822time_rendering {sys : System} {tz : Env} {len : ℕ} {t : ℤ} {neg : Bool}
    {hours : Fin 24} {minutes : Fin 60}
    (hzone : (sys.localtime tz t).gmtoff = (Zone.offset neg hours minutes).seconds sys)
    (hneg : neg = true ↔ (sys.localtime tz t).gmtoff < 0)
    (hlen : (rendering sys .day (.offset neg hours minutes) t).length < len) :
    rfc822time sys tz len t = some (rendering sys .day (.offset neg hours minutes) t) := by
  have hhours := hours.isLt
  have hminutes := minutes.isLt
  have habs : (sys.localtime tz t).gmtoff.natAbs = hours * 3600 + minutes * 60 := by
    rw [hzone, Zone.seconds]
    split_ifs <;> omega
  have hdigits : zoneDigits (sys.localtime tz t).gmtoff
      = (Zone.offset neg hours minutes).text := by
    have hhour : ((hours : ℕ) * 3600 + (minutes : ℕ) * 60) / 3600 = (hours : ℕ) := by omega
    have hminute : ((hours : ℕ) * 3600 + (minutes : ℕ) * 60) / 60 % 60 = (minutes : ℕ) := by omega
    simp only [zoneDigits, habs, hhour, hminute, Zone.text, if_congr hneg rfl rfl]
  have hbuf : sys.strftime .day (sys.localtime tz t).wall
        ++ ' ' :: zoneDigits (sys.localtime tz t).gmtoff
      = rendering sys .day (.offset neg hours minutes) t := by
    rw [hdigits, rendering, ← hzone]
    rfl
  rw [rfc822time, hbuf, if_neg (by omega)]

/-! ## Reading a zone -/

theorem digitChar_isDigit {n : ℕ} (h : n < 10) : (Nat.digitChar n).isDigit = true := by
  interval_cases n <;> rfl

theorem digitChar_value {n : ℕ} (h : n < 10) : (Nat.digitChar n).toNat - '0'.toNat = n := by
  interval_cases n <;> rfl

theorem isDigit_of_mem_twoDigits {n : ℕ} (h : n < 100) {c : Char} (hc : c ∈ twoDigits n) :
    c.isDigit = true := by
  have htens : n / 10 < 10 := by omega
  have hones : n % 10 < 10 := by omega
  simp only [twoDigits, List.mem_cons, List.not_mem_nil, or_false] at hc
  rcases hc with rfl | rfl
  · exact digitChar_isDigit htens
  · exact digitChar_isDigit hones

/-- Two numbers of two digits are one number of four. -/
theorem ofDigitChars_twoDigits {a b : ℕ} (ha : a < 100) (hb : b < 100) :
    Nat.ofDigitChars 10 (twoDigits a ++ twoDigits b) 0 = a * 100 + b := by
  simp only [twoDigits, List.cons_append, List.nil_append, Nat.ofDigitChars_cons,
    Nat.ofDigitChars_nil]
  rw [digitChar_value (n := a / 10) (by omega), digitChar_value (n := a % 10) (by omega),
    digitChar_value (n := b / 10) (by omega), digitChar_value (n := b % 10) (by omega)]
  omega

/-- The number that `strtonum` finds in an offset. -/
def Zone.number (neg : Bool) (hours minutes : ℕ) : ℤ :=
  if neg then -(hours * 100 + minutes : ℤ) else hours * 100 + minutes

theorem isDigit_of_mem_offset {hours : Fin 24} {minutes : Fin 60} {c : Char}
    (hc : c ∈ twoDigits hours ++ twoDigits minutes) : c.isDigit = true := by
  have hhours := hours.isLt
  have hminutes := minutes.isLt
  rcases List.mem_append.mp hc with hc | hc
  · exact isDigit_of_mem_twoDigits (by omega) hc
  · exact isDigit_of_mem_twoDigits (by omega) hc

theorem strtonum_offset (neg : Bool) (hours : Fin 24) (minutes : Fin 60) :
    strtonumBetween (-2359) 2359 (Zone.offset neg hours minutes).text
      = some (Zone.number neg hours minutes) := by
  have hhours := hours.isLt
  have hminutes := minutes.isLt
  have hvalue := ofDigitChars_twoDigits (a := hours) (b := minutes) (by omega) (by omega)
  have hnumber : Zone.number neg hours minutes
      = if neg then -(Nat.ofDigitChars 10 (twoDigits hours ++ twoDigits minutes) 0 : ℤ)
        else Nat.ofDigitChars 10 (twoDigits hours ++ twoDigits minutes) 0 := by
    rw [hvalue, Zone.number]
    push_cast
    rfl
  refine strtonumBetween_sign (by simp [twoDigits]) (fun c => isDigit_of_mem_offset) hnumber ?_ ?_
  · cases neg <;> simp only [Zone.number, Bool.false_eq_true, if_true, if_false] <;> omega
  · cases neg <;> simp only [Zone.number, Bool.false_eq_true, if_true, if_false] <;> omega

/-- Hours and minutes come out as the seconds they are. -/
theorem hhmm_number (sys : System) (neg : Bool) (hours : Fin 24) (minutes : Fin 60) :
    hhmm (Zone.number neg hours minutes) = (Zone.offset neg hours minutes).taken sys := by
  have hminutes := minutes.isLt
  have hnat : hhmm (hours * 100 + minutes : ℤ) = hours * 3600 + minutes * 60 := by
    have hdiv : (hours * 100 + minutes : ℤ).tdiv 100 = hours := by
      rw [Int.tdiv_eq_ediv_of_nonneg (by omega)]
      omega
    have hmod : (hours * 100 + minutes : ℤ).tmod 100 = minutes := by
      rw [Int.tmod_eq_emod_of_nonneg (by omega)]
      omega
    rw [hhmm, hdiv, hmod, timeHour, timeMinute]
  cases neg with
  | false => exact hnat
  | true =>
    have hneg : ∀ n : ℤ, hhmm (-n) = -hhmm n := by
      intro n
      simp only [hhmm, Int.neg_tdiv, Int.neg_tmod, timeHour, timeMinute]
      omega
    show hhmm (-(hours * 100 + minutes : ℤ)) = -(hours * 3600 + minutes * 60 : ℤ)
    rw [hneg, hnat]

theorem text_word {sys : System} {zone : Zone} (hknown : zone.Known sys) {c : Char}
    (hc : c ∈ zone.text) : isSpace c = false ∧ c ≠ '\x00' := by
  cases zone with
  | name z => exact hknown.1 c hc
  | offset neg hours minutes =>
    rcases List.mem_cons.mp hc with rfl | hc
    · cases neg <;> decide
    · have hdigit : c.isDigit = true := isDigit_of_mem_offset hc
      refine ⟨not_isSpace_of_isDigit hdigit, ?_⟩
      rintro rfl
      exact absurd hdigit (by decide)

/-! ## Reading a date -/

section

variable {sys : System} {tz : Env} {m : Mail α} {fmt : Format} {w : List Char} {wall : ℤ}

theorem cString_date (hword : ∀ c ∈ w, isSpace c = false ∧ c ≠ '\x00')
    (hparse : Parses sys fmt wall) :
    cString (sys.strftime fmt wall ++ ' ' :: w) = sys.strftime fmt wall ++ ' ' :: w := by
  refine List.takeWhile_eq_self_iff.mpr fun c hc => decide_eq_true ?_
  rcases List.mem_append.mp hc with hc | hc
  · rintro rfl
    exact hparse.clean hc
  · rcases List.mem_cons.mp hc with rfl | hc
    · decide
    · exact (hword c hc).2

/-- The value of a header does not start with a space. -/
theorem dropWhile_headerValue (hdr l : List Char) :
    (headerValue hdr l).dropWhile isSpace = headerValue hdr l := by
  rw [List.dropWhile_eq_self_iff]
  intro hpos
  have hprefix : headerValue hdr l <+: (l.drop (hdr.length + 1)).dropWhile isSpace :=
    List.rdropWhile_prefix _ _
  have hpos' := Nat.lt_of_lt_of_le hpos hprefix.length_le
  have hsame := List.IsPrefix.getElem hprefix hpos
  rw [hsame]
  have hhead := List.head_dropWhile_not isSpace (List.ne_nil_of_length_pos hpos')
  rw [List.head_eq_getElem] at hhead
  simp [hhead]

theorem takeWhile_word (hword : ∀ c ∈ w, isSpace c = false ∧ c ≠ '\x00') :
    ((' ' :: w).dropWhile isSpace).takeWhile (!isSpace ·) = w := by
  have hskip : (' ' :: w).dropWhile isSpace = w := by
    rw [List.dropWhile_cons_of_pos (by rfl), List.dropWhile_eq_self_iff]
    intro hpos
    rw [(hword _ (List.getElem_mem hpos)).1]
    exact Bool.false_ne_true
  rw [hskip, List.takeWhile_eq_self_iff]
  intro c hc
  rw [(hword c hc).1]
  rfl

/-- One of the two formats fits. -/
theorem strptime_date (hparse : Parses sys fmt wall) :
    (sys.strptime .day (sys.strftime fmt wall ++ ' ' :: w)).or
        (sys.strptime .noDay (sys.strftime fmt wall ++ ' ' :: w))
      = some (wall, ' ' :: w) := by
  cases fmt with
  | day =>
    rw [hparse.parse]
    rfl
  | noDay =>
    rw [hparse.other rfl, hparse.parse]
    rfl

/-- What `mailtime` makes of a date with one word behind it. -/
theorem mailtime_date {off : ℕ} {l : List Char} (hdate : m.findHeader dateHeader = some (off, l))
    (hvalue : headerValue dateHeader l = sys.strftime fmt wall ++ ' ' :: w)
    (hword : ∀ c ∈ w, isSpace c = false ∧ c ≠ '\x00') (hparse : Parses sys fmt wall) :
    mailtime sys tz m =
      match strtonumBetween (-2359) 2359 w with
      | some n => (validTime (sys.mktime tz wall - hhmm n), tz)
      | none =>
        match tzlookup sys tz w with
        | (none, tz') => (none, tz')
        | (some n, tz') => (validTime (sys.mktime tz wall - hhmm n), tz') := by
  have hne : sys.strftime fmt wall ++ ' ' :: w ≠ [] := by simp
  have hskip := dropWhile_headerValue dateHeader l
  rw [hvalue] at hskip
  simp only [mailtime, hdate, hvalue, if_neg hne, cString_date hword hparse, hskip,
    strptime_date hparse, takeWhile_word hword]

/-- The name of a zone that the system does not know stays in the environment. -/
theorem mailtime_unknown {off : ℕ} {l : List Char}
    (hdate : m.findHeader dateHeader = some (off, l))
    (hvalue : headerValue dateHeader l = sys.strftime fmt wall ++ ' ' :: w)
    (hword : ∀ c ∈ w, isSpace c = false ∧ c ≠ '\x00') (hparse : Parses sys fmt wall)
    (hname : strtonumBetween (-2359) 2359 w = none)
    (hunknown : (sys.localtime (some w) timeYear).zone ≠ w) :
    mailtime sys tz m = (none, some w) := by
  have hlookup : tzlookup sys tz w = (none, some w) := by
    simp only [tzlookup, ne_eq, hunknown, not_false_eq_true, if_true]
  rw [mailtime_date hdate hvalue hword hparse, hname]
  simp only [hlookup]

end

section

variable {sys : System} {tz : Env} {m : Mail α} {fmt : Format} {zone : Zone} {t : ℤ}
  {off : ℕ} {l : List Char}

/-- What `mailtime` makes of a date in a known zone, wherever it runs. -/
theorem mailtime_rendering (hdate : m.findHeader dateHeader = some (off, l))
    (hvalue : headerValue dateHeader l = rendering sys fmt zone t)
    (hknown : zone.Known sys) (hparse : Parses sys fmt (t + zone.seconds sys)) :
    mailtime sys tz m
      = (validTime (sys.mktime tz (t + zone.seconds sys) - zone.taken sys), tz) := by
  rw [mailtime_date hdate hvalue (fun c => text_word hknown) hparse]
  cases zone with
  | offset neg hours minutes =>
    simp only [strtonum_offset, hhmm_number sys]
  | name z =>
    have hlookup : tzlookup sys tz z = (some ((Zone.name z).seconds sys), tz) := by
      simp only [tzlookup, hknown.2.2, ne_eq, not_true_eq_false, if_false]
      rfl
    simp only [Zone.text, hknown.2.1, hlookup]
    rfl

/-- `mailtime` finds the instant that a date was written for, and leaves the time zone, exactly
when the local zone is then ahead of UTC by what the zone of the date is ahead of what is
taken off for it. -/
theorem mailtime_iff (ht : 0 ≤ t) (hdate : m.findHeader dateHeader = some (off, l))
    (hvalue : headerValue dateHeader l = rendering sys fmt zone t)
    (hknown : zone.Known sys) (hparse : Parses sys fmt (t + zone.seconds sys))
    (hinverse : Inverse sys tz (t + zone.seconds sys)) :
    mailtime sys tz m = (some t, tz) ↔
      (sys.localtime tz (t + zone.taken sys)).gmtoff = zone.seconds sys - zone.taken sys := by
  have hvalid : ∀ u, validTime u = some t ↔ u = t := by
    intro u
    rw [validTime]
    split_ifs with hu
    · exact ⟨nofun, fun h => by omega⟩
    · exact Option.some_inj
  calc mailtime sys tz m = (some t, tz)
      ↔ sys.mktime tz (t + zone.seconds sys) - zone.taken sys = t := by
        rw [mailtime_rendering hdate hvalue hknown hparse, Prod.mk.injEq, hvalid]
        exact and_iff_left rfl
    _ ↔ t + zone.taken sys = sys.mktime tz (t + zone.seconds sys) := by
        constructor <;> intro h <;> omega
    _ ↔ (sys.localtime tz (t + zone.taken sys)).wall = t + zone.seconds sys :=
        (hinverse _).symm
    _ ↔ (sys.localtime tz (t + zone.taken sys)).gmtoff = zone.seconds sys - zone.taken sys := by
        simp only [System.localtime]
        constructor <;> intro h <;> omega

end

/-- `Thu, 30 Aug 2007 18:31:04`, and without the day. -/
def clockText : Format → List Char
  | .day => ['T', 'h', 'u', ',', ' ']
      ++ ['3', '0', ' ', 'A', 'u', 'g', ' ', '2', '0', '0', '7', ' ']
      ++ ['1', '8', ':', '3', '1', ':', '0', '4']
  | .noDay => ['3', '0', ' ', 'A', 'u', 'g', ' ', '2', '0', '0', '7', ' ']
      ++ ['1', '8', ':', '3', '1', ':', '0', '4']

/-- `Asia/Tokyo`. -/
def tokyo : List Char := ['A', 's', 'i', 'a', '/', 'T', 'o', 'k', 'y', 'o']

/-- `EST`. -/
def est : List Char := ['E', 'S', 'T']

/-- A system with Japanese time, with Eastern time and with UTC; none of them ever changes. -/
def clock : System where
  strftime fmt _ := clockText fmt
  strptime fmt s :=
    if clockText fmt <+: s then some (1188498664, s.drop (clockText fmt).length) else none
  offset tz _ := if tz = some tokyo then 32400 else if tz = some est then -18000 else 0
  zone tz _ := if tz = some tokyo then ['J', 'S', 'T'] else if tz = some est then est else ['U', 'T', 'C']
  mktime tz wall :=
    if tz = some tokyo then wall - 32400 else if tz = some est then wall + 18000 else wall

/-- `+0200`. -/
def summer : Zone := .offset false 2 0

/-- A mail with that date in a zone. -/
def dated (zone : Zone) : Mail Unit where
  data := ['D', 'a', 't', 'e', ':', ' '] ++ clockText .day ++ ' ' :: zone.text ++ ['\n']
  body := 100

theorem clock_inverse (tz : Env) (wall : ℤ) : Inverse clock tz wall := by
  intro u
  simp only [System.localtime, clock]
  split_ifs <;> omega

theorem clock_parses : Parses clock .day 1188498664 where
  clean := by decide
  parse rest := by
    simp only [clock, if_pos (List.prefix_append _ _), List.drop_left]
  other := nofun

/-- Under UTC, an offset is read as it was written. -/
theorem mailtime_utc :
    mailtime clock none (dated summer) = (some 1188491464, none) :=
  (mailtime_iff (by decide) rfl (show _ = rendering clock .day summer 1188491464 by decide) trivial
    clock_parses (clock_inverse _ _)).mpr (by decide)

/-- Under Japanese time, the instant is nine hours early. The name of a zone goes wrong under
UTC too: the 18000 seconds of `EST` are taken for 180 hours. -/
theorem mailtime_wrong :
    mailtime clock (some tokyo) (dated summer) = (some (1188491464 - 32400), some tokyo) ∧
    mailtime clock (some tokyo) (dated summer) ≠ (some 1188491464, some tokyo) ∧
    mailtime clock none (dated (.name est)) = (some (1188516664 + 630000), none) ∧
    mailtime clock none (dated (.name est)) ≠ (some 1188516664, none) := by
  decide

end Fdm.MailTime

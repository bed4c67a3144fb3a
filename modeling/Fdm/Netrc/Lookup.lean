import Fdm.Netrc.Token

/-!
# Looking up a host in `.netrc`

`netrc_lookup` of `netrc.c`, over the tokens of a file that is made of entries. It knows what it has
found so far, but not whether a token is a keyword or a value.

* `netrcLookup_isSome`: it comes to an end on every file;
* `right_iff`: when the answer is that of the entry for the host, or of the default entry.
-/

namespace Fdm.Netrc

/-! ## The code -/

def machineWord : List Char := ['m', 'a', 'c', 'h', 'i', 'n', 'e']

def defaultWord : List Char := ['d', 'e', 'f', 'a', 'u', 'l', 't']

def loginWord : List Char := ['l', 'o', 'g', 'i', 'n']

def passwordWord : List Char := ['p', 'a', 's', 's', 'w', 'o', 'r', 'd']

/-- What `netrc_lookup` leaves in `*user` and `*pass`, and whether it returns -1. -/
structure Answer where
  failed : Bool := false
  user : Option (List Char) := none
  pass : Option (List Char) := none
deriving DecidableEq, Repr

section

variable (host : List Char) (wantUser wantPass : Bool)

/-- The token behind `login` or `password`, which must not be empty. -/
def takeValue (f : List Char) : Option (List Char × List Char) :=
  match netrcToken f with
  | .token s f => if s = [] then none else some (s, f)
  | _ => none

/-- The token is `login`: the one behind it is the user, and is what the token is compared to next. -/
def readLogin (s f : List Char) (r : Answer) : Except Answer (List Char × List Char × Answer) :=
  if wantUser ∧ s = loginWord then
    match takeValue f with
    | none => .error { r with failed := true }
    | some (v, f) => .ok (v, f, { r with user := some v })
  else .ok (s, f, r)

/-- The token is `password`. -/
def readPassword (s f : List Char) (r : Answer) : Except Answer (List Char × Answer) :=
  if wantPass ∧ s = passwordWord then
    match takeValue f with
    | none => .error { r with failed := true }
    | some (v, f) => .ok (f, { r with pass := some v })
  else .ok (f, r)

/-- The loop of `netrc_lookup`, at most so many times. -/
def lookupLoop : ℕ → List Char → Bool → Answer → Option Answer
  | 0, _, _, _ => none
  | n + 1, f, found, r =>
    match netrcToken f with
    | .eof => some r
    | .error => some { r with failed := true }
    | .token s f =>
      if found = false then
        if s = machineWord then
          match netrcToken f with
          | .token s f => lookupLoop n f (s = host) r
          | _ => some { r with failed := true }
        else lookupLoop n f (s = defaultWord) r
      else if s = machineWord ∨ s = defaultWord then some r
      else
        match readLogin wantUser s f r with
        | .error r => some r
        | .ok (s, f, r) =>
          match readPassword wantPass s f r with
          | .error r => some r
          | .ok (f, r) => lookupLoop n f true r

end

/-- `netrc_lookup`; the flags say whether the user and the password are asked for. -/
def netrcLookup (f host : List Char) (wantUser wantPass : Bool) : Option Answer :=
  lookupLoop host wantUser wantPass (f.length + 1) f false {}

/-! ## Entries -/

inductive Key
  | login
  | password
deriving DecidableEq, Repr

def Key.word : Key → List Char
  | .login => loginWord
  | .password => passwordWord

/-- An entry for a machine, or the default entry: a user and a password, or one of them. -/
structure Entry where
  machine : Option (List Char)
  fields : List (Key × List Char)
  once : (fields.map Prod.fst).Nodup
  filled : ∀ f ∈ fields, f.2 ≠ []

namespace Entry

def head (e : Entry) : List (List Char) :=
  match e.machine with
  | some m => [machineWord, m]
  | none => [defaultWord]

def words (e : Entry) : List (List Char) := e.head ++ e.fields.flatMap fun f => [f.1.word, f.2]

def get (e : Entry) (k : Key) : Option (List Char) :=
  (e.fields.find? (·.1 = k)).map Prod.snd

end Entry

/-- A file with these entries, however their words are written. -/
structure File (es : List Entry) where
  tokens : List Token
  tail : List Char
  sound : ∀ t ∈ tokens, t.Sound
  separated : Separated tokens tail
  blank : ∀ c ∈ tail, isBlank c = true
  words : tokens.map Token.value = es.flatMap Entry.words

def File.text {es : List Entry} (file : File es) : List Char := render file.tokens file.tail

/-- What was asked for, of an entry. -/
def answer (wantUser wantPass : Bool) (e : Option Entry) : Answer where
  user := if wantUser then e.bind (·.get .login) else none
  pass := if wantPass then e.bind (·.get .password) else none

/-- The first entry for the host, or else the default entry. -/
def target (es : List Entry) (host : List Char) : Option Entry :=
  (es.find? (·.machine = some host)).or (es.find? (·.machine = none))

/-- The entry for the host, or a default entry. -/
def Entry.fits (host : List Char) (e : Entry) : Bool :=
  e.machine = some host || e.machine = none

/-- The first one of them. -/
def chosen (es : List Entry) (host : List Char) : Option Entry := es.find? (Entry.fits host)

/-- What is read of a file: the entries up to the first one that fits, and the word behind it. -/
def File.read {es : List Entry} (file : File es) (host : List Char) : List Token :=
  file.tokens.take
    (((es.take (es.findIdx (Entry.fits host) + 1)).flatMap Entry.words).length + 1)

/-- The lookup gives what was asked for of the right entry. -/
def Right {es : List Entry} (file : File es) (host : List Char) (wantUser wantPass : Bool) : Prop :=
  netrcLookup file.text host wantUser wantPass = some (answer wantUser wantPass (target es host))

/-- A value that spells the head of an entry. -/
def spellsHead (v : List Char) : Bool := v = machineWord || v = defaultWord

/-- A value that is not taken for a keyword in the entry that has been found: a user is compared to
`password`, and what was not asked for to all keywords. -/
def plainField (wantUser wantPass : Bool) : Key × List Char → Bool
  | (.login, v) => (wantUser || !spellsHead v) && !(wantPass && v = passwordWord)
  | (.password, v) => wantPass || !spellsHead v && !(wantUser && v = loginWord)

/-- No value is taken for a keyword: neither in front of the first entry that fits nor in it. -/
def Unambiguous (es : List Entry) (host : List Char) (wantUser wantPass : Bool) : Prop :=
  (∀ e ∈ es.takeWhile (!·.fits host), ∀ f ∈ e.fields, spellsHead f.2 = false) ∧
    ∀ e, chosen es host = some e → ∀ f ∈ e.fields, plainField wantUser wantPass f = true

/-! ## The loop ends -/

section

variable {host : List Char} {wantUser wantPass found : Bool} {f g s v : List Char} {r out : Answer}

/-- More steps change nothing. -/
theorem lookupLoop_mono {n m : ℕ} (hnm : n ≤ m)
    (h : lookupLoop host wantUser wantPass n f found r = some out) :
    lookupLoop host wantUser wantPass m f found r = some out := by
  induction n generalizing f found r m with
  | zero => cases h
  | succ n ih =>
    obtain ⟨m, rfl⟩ : ∃ k, m = k + 1 := ⟨m - 1, by omega⟩
    have hle : n ≤ m := by omega
    rw [lookupLoop] at h ⊢
    cases hf : netrcToken f with
    | eof =>
      rw [hf] at h
      exact h
    | error =>
      rw [hf] at h
      exact h
    | token s g =>
      rw [hf] at h
      simp only at h ⊢
      split_ifs at h ⊢ with hfound hmachine hhead
      · cases hg : netrcToken g with
        | eof =>
          rw [hg] at h
          exact h
        | error =>
          rw [hg] at h
          exact h
        | token s' g' =>
          rw [hg] at h
          exact ih hle h
      · exact ih hle h
      · exact h
      · cases hlogin : readLogin wantUser s g r with
        | error r' =>
          rw [hlogin] at h
          exact h
        | ok q =>
          obtain ⟨s', g', r'⟩ := q
          rw [hlogin] at h
          simp only at h ⊢
          cases hpassword : readPassword wantPass s' g' r' with
          | error r'' =>
            rw [hpassword] at h
            exact h
          | ok q =>
            obtain ⟨g'', r''⟩ := q
            rw [hpassword] at h
            exact ih hle h

theorem length_takeValue (h : takeValue f = some (v, g)) : g.length ≤ f.length := by
  rw [takeValue] at h
  cases hf : netrcToken f with
  | eof =>
    rw [hf] at h
    cases h
  | error =>
    rw [hf] at h
    cases h
  | token s f' =>
    rw [hf] at h
    simp only at h
    split_ifs at h
    cases h
    exact (length_netrcToken hf).le

theorem length_readLogin {s' : List Char} {r' : Answer}
    (h : readLogin wantUser s f r = .ok (s', g, r')) : g.length ≤ f.length := by
  rw [readLogin] at h
  split_ifs at h
  · cases hvalue : takeValue f with
    | none =>
      rw [hvalue] at h
      cases h
    | some q =>
      rw [hvalue] at h
      cases h
      exact length_takeValue hvalue
  · cases h
    exact Nat.le_refl _

theorem length_readPassword {r' : Answer} (h : readPassword wantPass s f r = .ok (g, r')) :
    g.length ≤ f.length := by
  rw [readPassword] at h
  split_ifs at h
  · cases hvalue : takeValue f with
    | none =>
      rw [hvalue] at h
      cases h
    | some q =>
      rw [hvalue] at h
      cases h
      exact length_takeValue hvalue
  · cases h
    exact Nat.le_refl _

/-- Each pass uses up some of the file. -/
theorem lookupLoop_isSome {n : ℕ} (hn : f.length < n) :
    (lookupLoop host wantUser wantPass n f found r).isSome = true := by
  induction n generalizing f found r with
  | zero => omega
  | succ n ih =>
    rw [lookupLoop]
    cases hf : netrcToken f with
    | eof => rfl
    | error => rfl
    | token s g =>
      have hg := length_netrcToken hf
      simp only
      split_ifs
      · cases hk : netrcToken g with
        | eof => rfl
        | error => rfl
        | token s' k =>
          have hlt := length_netrcToken hk
          exact ih (by omega)
      · exact ih (by omega)
      · rfl
      · cases hlogin : readLogin wantUser s g r with
        | error r' => rfl
        | ok q =>
          obtain ⟨s', g', r'⟩ := q
          have hg' := length_readLogin hlogin
          simp only
          cases hpassword : readPassword wantPass s' g' r' with
          | error r'' => rfl
          | ok q =>
            obtain ⟨k, r''⟩ := q
            have hk := length_readPassword hpassword
            exact ih (by omega)

/-- A lookup comes to an end, whatever is in the file. -/
theorem netrcLookup_isSome (f host : List Char) (wantUser wantPass : Bool) :
    (netrcLookup f host wantUser wantPass).isSome = true :=
  lookupLoop_isSome (Nat.lt_succ_self _)

/-! ## Words of entries -/

/-- The loop ends with this answer. -/
def Gives (host : List Char) (wantUser wantPass : Bool) (f : List Char) (found : Bool)
    (r out : Answer) : Prop :=
  ∃ n, lookupLoop host wantUser wantPass n f found r = some out

theorem netrcLookup_of_gives (h : Gives host wantUser wantPass f false {} out) :
    netrcLookup f host wantUser wantPass = some out := by
  obtain ⟨out', hout⟩ := Option.isSome_iff_exists.mp (netrcLookup_isSome f host wantUser wantPass)
  obtain ⟨n, hn⟩ := h
  have hmax := lookupLoop_mono (Nat.le_max_left n (f.length + 1)) hn
  rw [lookupLoop_mono (Nat.le_max_right n (f.length + 1)) hout] at hmax
  rw [hout, Option.some.inj hmax]

/-- These words are read one after the other, and then the rest of the file is left. -/
def Comes : List (List Char) → List Char → List Char → Prop
  | [], f, g => f = g
  | w :: ws, f, g => ∃ f', netrcToken f = .token w f' ∧ Comes ws f' g

theorem comes_append {ws vs : List (List Char)} (h : Comes (ws ++ vs) f g) :
    ∃ k, Comes ws f k ∧ Comes vs k g := by
  induction ws generalizing f with
  | nil => exact ⟨f, rfl, h⟩
  | cons w ws ih =>
    obtain ⟨f', hf, hrest⟩ := h
    obtain ⟨k, hws, hvs⟩ := ih hrest
    exact ⟨k, ⟨f', hf, hws⟩, hvs⟩

/-- At the end of the file the result is what was found. -/
theorem gives_eof (hf : netrcToken f = .eof) : Gives host wantUser wantPass f found r r := by
  refine ⟨1, ?_⟩
  rw [lookupLoop, hf]

/-- A `machine` is the one that is looked for, or its fields are passed over. -/
theorem gives_machine {m : List Char} (hf : Comes [machineWord, m] f g)
    (h : Gives host wantUser wantPass g (m = host) r out) :
    Gives host wantUser wantPass f false r out := by
  obtain ⟨k, hf, g, hg, rfl⟩ := hf
  obtain ⟨n, hn⟩ := h
  refine ⟨n + 1, ?_⟩
  rw [lookupLoop, hf]
  simp only
  rw [if_pos trivial, if_pos trivial, hg]
  exact hn

/-- `default` is taken where it is met. -/
theorem gives_default (hf : netrcToken f = .token defaultWord g)
    (h : Gives host wantUser wantPass g true r out) :
    Gives host wantUser wantPass f false r out := by
  have hword : ¬ defaultWord = machineWord := by decide
  obtain ⟨n, hn⟩ := h
  refine ⟨n + 1, ?_⟩
  rw [lookupLoop, hf]
  simp only
  rw [if_pos trivial, if_neg hword]
  simpa using hn

/-- In front of the entry any other word is passed over. -/
theorem gives_pass (hf : netrcToken f = .token s g) (hs : spellsHead s = false)
    (h : Gives host wantUser wantPass g false r out) :
    Gives host wantUser wantPass f false r out := by
  rw [spellsHead, Bool.or_eq_false_iff, decide_eq_false_iff_not, decide_eq_false_iff_not] at hs
  obtain ⟨n, hn⟩ := h
  refine ⟨n + 1, ?_⟩
  rw [lookupLoop, hf]
  simp only
  rw [if_pos trivial, if_neg hs.1, decide_eq_false hs.2]
  exact hn

/-- The next head ends the entry. -/
theorem gives_head (hf : netrcToken f = .token s g) (hs : spellsHead s = true) :
    Gives host wantUser wantPass f true r r := by
  rw [spellsHead, Bool.or_eq_true, decide_eq_true_iff, decide_eq_true_iff] at hs
  have htrue : ¬ (true = false) := nofun
  refine ⟨1, ?_⟩
  rw [lookupLoop, hf]
  simp only
  rw [if_neg htrue, if_pos hs]

/-- In the entry, a word that is neither a head nor asked for is passed over. -/
theorem gives_skip (hf : netrcToken f = .token s g) (hs : spellsHead s = false)
    (hlogin : ¬ (wantUser = true ∧ s = loginWord))
    (hpassword : ¬ (wantPass = true ∧ s = passwordWord))
    (h : Gives host wantUser wantPass g true r out) :
    Gives host wantUser wantPass f true r out := by
  rw [spellsHead, Bool.or_eq_false_iff, decide_eq_false_iff_not, decide_eq_false_iff_not] at hs
  have htrue : ¬ (true = false) := nofun
  have hhead : ¬ (s = machineWord ∨ s = defaultWord) := by
    rintro (h | h)
    · exact hs.1 h
    · exact hs.2 h
  obtain ⟨n, hn⟩ := h
  refine ⟨n + 1, ?_⟩
  rw [lookupLoop, hf]
  simp only
  rw [if_neg htrue, if_neg hhead, readLogin, if_neg hlogin]
  simp only
  rw [readPassword, if_neg hpassword]
  exact hn

theorem takeValue_eq (hf : netrcToken f = .token v g) (hv : v ≠ []) :
    takeValue f = some (v, g) := by
  rw [takeValue, hf]
  simp only
  rw [if_neg hv]

/-- The user of the chosen entry is read. -/
theorem gives_login (hf : Comes [loginWord, v] f g) (hwant : wantUser = true) (hv : v ≠ [])
    (hpassword : ¬ (wantPass = true ∧ v = passwordWord))
    (h : Gives host wantUser wantPass g true { r with user := some v } out) :
    Gives host wantUser wantPass f true r out := by
  obtain ⟨k, hf, g, hg, rfl⟩ := hf
  have htrue : ¬ (true = false) := nofun
  have hhead : ¬ (loginWord = machineWord ∨ loginWord = defaultWord) := by decide
  obtain ⟨n, hn⟩ := h
  refine ⟨n + 1, ?_⟩
  rw [lookupLoop, hf]
  simp only
  rw [if_neg htrue, if_neg hhead, readLogin, if_pos ⟨hwant, rfl⟩, takeValue_eq hg hv]
  simp only
  rw [readPassword, if_neg hpassword]
  exact hn

/-- And its password. -/
theorem gives_password (hf : Comes [passwordWord, v] f g) (hwant : wantPass = true) (hv : v ≠ [])
    (h : Gives host wantUser wantPass g true { r with pass := some v } out) :
    Gives host wantUser wantPass f true r out := by
  obtain ⟨k, hf, g, hg, rfl⟩ := hf
  have htrue : ¬ (true = false) := nofun
  have hhead : ¬ (passwordWord = machineWord ∨ passwordWord = defaultWord) := by decide
  have hlogin : ¬ (wantUser = true ∧ passwordWord = loginWord) := fun h => absurd h.2 (by decide)
  obtain ⟨n, hn⟩ := h
  refine ⟨n + 1, ?_⟩
  rw [lookupLoop, hf]
  simp only
  rw [if_neg htrue, if_neg hhead, readLogin, if_neg hlogin]
  simp only
  rw [readPassword, if_pos ⟨hwant, rfl⟩, takeValue_eq hg hv]
  exact hn

/-! ## Entries -/

theorem spellsHead_word (k : Key) : spellsHead k.word = false := by
  cases k <;> decide

/-- The fields of other entries are passed over. -/
theorem gives_fields_pass {fields : List (Key × List Char)}
    (hf : Comes (fields.flatMap fun f => [f.1.word, f.2]) f g)
    (hfields : ∀ f ∈ fields, spellsHead f.2 = false)
    (h : Gives host wantUser wantPass g false r out) :
    Gives host wantUser wantPass f false r out := by
  induction fields generalizing f with
  | nil =>
    obtain rfl : f = g := hf
    exact h
  | cons p fields ih =>
    obtain ⟨f', hword, k, hvalue, hrest⟩ := hf
    have hpass := ih hrest fun q hq => hfields q (List.mem_cons_of_mem _ hq)
    exact gives_pass hword (spellsHead_word p.1)
      (gives_pass hvalue (hfields p List.mem_cons_self) hpass)

/-- An entry that does not fit is passed over. -/
theorem gives_entry_pass {e : Entry} (hf : Comes e.words f g) (hfits : e.fits host = false)
    (hfields : ∀ f ∈ e.fields, spellsHead f.2 = false)
    (h : Gives host wantUser wantPass g false r out) :
    Gives host wantUser wantPass f false r out := by
  rw [Entry.fits, Bool.or_eq_false_iff, decide_eq_false_iff_not, decide_eq_false_iff_not] at hfits
  obtain ⟨k, hhead, hrest⟩ := comes_append hf
  rw [Entry.head] at hhead
  cases hmachine : e.machine with
  | none => exact absurd hmachine hfits.2
  | some m =>
    rw [hmachine] at hhead
    have hm : (m = host) = False := by
      rw [hmachine, Option.some.injEq] at hfits
      exact eq_false hfits.1
    refine gives_machine hhead ?_
    simp only [hm, decide_false]
    exact gives_fields_pass hrest hfields h

/-- What a field of the entry leaves. -/
def put (wantUser wantPass : Bool) (r : Answer) : Key × List Char → Answer
  | (.login, v) => if wantUser then { r with user := some v } else r
  | (.password, v) => if wantPass then { r with pass := some v } else r

theorem gives_field {p : Key × List Char} (hf : Comes [p.1.word, p.2] f g)
    (hplain : plainField wantUser wantPass p = true) (hv : p.2 ≠ [])
    (h : Gives host wantUser wantPass g true (put wantUser wantPass r p) out) :
    Gives host wantUser wantPass f true r out := by
  obtain ⟨k, v⟩ := p
  cases k with
  | login =>
    simp only [plainField, Bool.and_eq_true, Bool.or_eq_true, Bool.not_eq_true',
      Bool.and_eq_false_iff, decide_eq_false_iff_not] at hplain
    obtain ⟨hhead, hpassword⟩ := hplain
    have hnot : ¬ (wantPass = true ∧ v = passwordWord) := by
      rintro ⟨hwant, hspelt⟩
      rcases hpassword with h | h
      · rw [hwant] at h
        cases h
      · exact h hspelt
    cases hwant : wantUser with
    | true =>
      rw [hwant, put, if_pos rfl] at h
      exact gives_login hf rfl hv hnot h
    | false =>
      rw [hwant] at h hhead
      rw [put, if_neg Bool.false_ne_true] at h
      have hvalue : spellsHead v = false := hhead.resolve_left Bool.false_ne_true
      obtain ⟨f', hword, k, htoken, rfl⟩ := hf
      have hother : loginWord ≠ passwordWord := by decide
      refine gives_skip hword (spellsHead_word .login) (fun h => Bool.false_ne_true h.1)
        (fun h => hother h.2) ?_
      exact gives_skip htoken hvalue (fun h => Bool.false_ne_true h.1) hnot h
  | password =>
    simp only [plainField, Bool.and_eq_true, Bool.or_eq_true, Bool.not_eq_true',
      Bool.and_eq_false_iff, decide_eq_false_iff_not] at hplain
    cases hwant : wantPass with
    | true =>
      rw [hwant, put, if_pos rfl] at h
      exact gives_password hf rfl hv h
    | false =>
      rw [hwant] at h hplain
      rw [put, if_neg Bool.false_ne_true] at h
      obtain ⟨hvalue, hlogin⟩ := hplain.resolve_left Bool.false_ne_true
      have hnot : ¬ (wantUser = true ∧ v = loginWord) := by
        rintro ⟨hwant, hspelt⟩
        rcases hlogin with h | h
        · rw [hwant] at h
          cases h
        · exact h hspelt
      obtain ⟨f', hword, k, htoken, rfl⟩ := hf
      have hother : passwordWord ≠ loginWord := by decide
      refine gives_skip hword (spellsHead_word .password) (fun h => hother h.2)
        (fun h => Bool.false_ne_true h.1) ?_
      exact gives_skip htoken hvalue hnot (fun h => Bool.false_ne_true h.1) h

/-- The fields of the chosen entry are read one after another. -/
theorem gives_fields {fields : List (Key × List Char)}
    (hf : Comes (fields.flatMap fun f => [f.1.word, f.2]) f g)
    (hplain : ∀ f ∈ fields, plainField wantUser wantPass f = true) (hv : ∀ f ∈ fields, f.2 ≠ [])
    (h : Gives host wantUser wantPass g true (fields.foldl (put wantUser wantPass) r) out) :
    Gives host wantUser wantPass f true r out := by
  induction fields generalizing f r with
  | nil =>
    obtain rfl : f = g := hf
    exact h
  | cons p fields ih =>
    have hboth : Comes ([p.1.word, p.2] ++ fields.flatMap fun p => [p.1.word, p.2]) f g := hf
    obtain ⟨k, hfield, hrest⟩ := comes_append hboth
    refine gives_field hfield (hplain p List.mem_cons_self) (hv p List.mem_cons_self) ?_
    exact ih hrest (fun q hq => hplain q (List.mem_cons_of_mem _ hq))
      (fun q hq => hv q (List.mem_cons_of_mem _ hq)) h

/-- The fields leave what was asked for; each key is there once. -/
theorem foldl_put {fields : List (Key × List Char)} (honce : (fields.map Prod.fst).Nodup)
    (wantUser wantPass : Bool) (r : Answer) :
    fields.foldl (put wantUser wantPass) r =
      { failed := r.failed
        user := if wantUser then ((fields.find? (·.1 = Key.login)).map Prod.snd).or r.user
          else r.user
        pass := if wantPass then ((fields.find? (·.1 = Key.password)).map Prod.snd).or r.pass
          else r.pass } := by
  induction fields generalizing r with
  | nil => simp
  | cons f fields ih =>
    rw [List.map_cons, List.nodup_cons] at honce
    have hnone : fields.find? (·.1 = f.1) = none := by
      rw [List.find?_eq_none]
      intro g hg
      rw [decide_eq_true_iff]
      intro heq
      exact honce.1 (heq ▸ List.mem_map_of_mem hg)
    obtain ⟨k, v⟩ := f
    rw [List.foldl_cons, ih honce.2]
    cases k with
    | login =>
      simp only at hnone
      cases wantUser <;> simp [put, hnone]
    | password =>
      simp only at hnone
      cases wantPass <;> simp [put, hnone]

/-- What ends an entry: the head of the next one, or the end of the file. -/
def Ends (f : List Char) : Prop :=
  netrcToken f = .eof ∨ ∃ s g, netrcToken f = .token s g ∧ spellsHead s = true

/-- In the entry, its fields are read. -/
theorem gives_entry {e : Entry} (hf : Comes e.words f g) (hfits : e.fits host = true)
    (hplain : ∀ f ∈ e.fields, plainField wantUser wantPass f = true) (hend : Ends g) :
    Gives host wantUser wantPass f false {} (answer wantUser wantPass (some e)) := by
  obtain ⟨k, hhead, hrest⟩ := comes_append hf
  have hfields : Gives host wantUser wantPass k true {} (answer wantUser wantPass (some e)) := by
    refine gives_fields hrest hplain e.filled ?_
    have hread : e.fields.foldl (put wantUser wantPass) {} =
        answer wantUser wantPass (some e) := by
      rw [foldl_put e.once, answer]
      simp [Entry.get]
    rw [hread]
    rcases hend with heof | ⟨s, g', hg, hs⟩
    · exact gives_eof heof
    · exact gives_head hg hs
  rw [Entry.fits, Bool.or_eq_true, decide_eq_true_iff, decide_eq_true_iff] at hfits
  rw [Entry.head] at hhead
  rcases hfits with hmachine | hmachine
  · rw [hmachine] at hhead
    refine gives_machine hhead ?_
    simp only [decide_true]
    exact hfields
  · rw [hmachine] at hhead
    obtain ⟨k, hword, rfl⟩ := hhead
    exact gives_default hword hfields

/-- Where no value is taken for a keyword, the first entry that fits gives the answer, whatever
stands behind it. -/
theorem gives_entries {es : List Entry} (h : Unambiguous es host wantUser wantPass)
    (hf : Comes ((es.take (es.findIdx (Entry.fits host) + 1)).flatMap Entry.words) f g)
    (hend : Ends g) (hlast : chosen es host = none → netrcToken g = .eof) :
    Gives host wantUser wantPass f false {} (answer wantUser wantPass (chosen es host)) := by
  induction es generalizing f with
  | nil =>
    obtain rfl : f = g := hf
    have hnone : answer wantUser wantPass (chosen [] host) = {} := by
      simp [answer, chosen]
    rw [hnone]
    exact gives_eof (hlast rfl)
  | cons e es ih =>
    obtain ⟨hbefore, hentry⟩ := h
    cases hfits : e.fits host with
    | true =>
      have hchosen : chosen (e :: es) host = some e := by
        rw [chosen, List.find?_cons_of_pos hfits]
      rw [List.findIdx_cons, hfits, cond_true, List.take_succ_cons, List.take_zero,
        List.flatMap_singleton] at hf
      rw [hchosen]
      exact gives_entry hf hfits (hentry e hchosen) hend
    | false =>
      -- the entry is passed over, and the induction goes on with the others
      have hchosen : chosen (e :: es) host = chosen es host := by
        rw [chosen, List.find?_cons_of_neg (by simp [hfits]), chosen]
      have hwhile : (e :: es).takeWhile (!·.fits host) = e :: es.takeWhile (!·.fits host) := by
        rw [List.takeWhile_cons_of_pos (by simp [hfits])]
      rw [List.findIdx_cons, hfits, cond_false, List.take_succ_cons, List.flatMap_cons] at hf
      obtain ⟨k, hwords, hrest⟩ := comes_append hf
      rw [hwhile] at hbefore
      rw [hchosen] at hentry hlast ⊢
      refine gives_entry_pass hwords hfits (hbefore e List.mem_cons_self) ?_
      exact ih ⟨fun e' he' => hbefore e' (List.mem_cons_of_mem _ he'), hentry⟩ hrest hlast

/-! ## Files -/

/-- Tokens that stand in the file are read one after the other. -/
theorem comes_tokens {ts us : List Token} {tail : List Char} (hsound : ∀ t ∈ ts, t.Sound)
    (hread : ∀ t ∈ ts, ¬ t.Misread) (hseparated : Separated (ts ++ us) tail)
    (hf : Stands (ts ++ us) tail f) :
    ∃ g, Comes (ts.map Token.value) f g ∧ Stands us tail g ∧ Separated us tail := by
  induction ts generalizing f with
  | nil => exact ⟨f, rfl, hf, hseparated⟩
  | cons t ts ih =>
    rw [List.forall_mem_cons] at hsound hread
    obtain ⟨f', hf', hstands⟩ := netrcToken_token hsound.1 hread.1 hseparated hf
    obtain ⟨g, hcomes, hrest⟩ := ih hsound.2 hread.2 hseparated.2 hstands
    exact ⟨g, ⟨f', hf', hcomes⟩, hrest⟩

/-- A head comes first in an entry. -/
theorem head_words (e : Entry) : ∃ w ws, e.words = w :: ws ∧ spellsHead w = true := by
  rw [Entry.words, Entry.head]
  cases e.machine with
  | none => exact ⟨_, _, rfl, by decide⟩
  | some m => exact ⟨_, _, rfl, by decide⟩

/-- The answer is that of the first entry that fits. -/
theorem netrcLookup_eq {es : List Entry} (file : File es)
    (hread : ∀ t ∈ file.read host, ¬ t.Misread) (h : Unambiguous es host wantUser wantPass) :
    netrcLookup file.text host wantUser wantPass =
      some (answer wantUser wantPass (chosen es host)) := by
  have hsplit : es.flatMap Entry.words =
      (es.take (es.findIdx (Entry.fits host) + 1)).flatMap Entry.words ++
        (es.drop (es.findIdx (Entry.fits host) + 1)).flatMap Entry.words := by
    rw [← List.flatMap_append, List.take_append_drop]
  have hwords := file.words
  rw [hsplit, List.map_eq_append_iff] at hwords
  -- the tokens of the entries up to the one that is chosen, and those behind them
  obtain ⟨ts, us, htokens, hts, hus⟩ := hwords
  have hsound := file.sound
  have hseparated := file.separated
  rw [htokens] at hsound hseparated
  rw [File.read, htokens, ← hts, List.length_map, List.take_append, List.take_of_length_le (by simp),
    Nat.add_sub_cancel_left] at hread
  have hstands : Stands (ts ++ us) file.tail file.text := by rw [File.text, htokens, Stands]
  obtain ⟨g, hcomes, hg, hseparated⟩ := comes_tokens
    (fun t ht => hsound t (List.mem_append_left _ ht))
    (fun t ht => hread t (List.mem_append_left _ ht)) hseparated hstands
  rw [hts] at hcomes
  have hnil (hus : us = []) : netrcToken g = .eof := by
    subst hus
    exact netrcToken_nil file.blank hg
  refine netrcLookup_of_gives (gives_entries h hcomes ?_ fun hnone => ?_)
  · cases us with
    | nil => exact .inl (hnil rfl)
    | cons u us =>
      -- the entry behind it is not empty
      obtain ⟨g', hu, -⟩ := netrcToken_token (hsound u (by simp)) (hread u (by simp)) hseparated hg
      refine .inr ⟨u.value, g', hu, ?_⟩
      cases hdrop : es.drop (es.findIdx (Entry.fits host) + 1) with
      | nil =>
        rw [hdrop] at hus
        cases hus
      | cons e es' =>
        obtain ⟨w, ws, he, hw⟩ := head_words e
        rw [hdrop, List.flatMap_cons, he] at hus
        rw [(List.cons.inj hus).1]
        exact hw
  · -- no entry fits, so that all of them have been read
    have hidx : es.findIdx (Entry.fits host) = es.length := by
      rw [List.findIdx_eq_length]
      intro e he
      rw [chosen, List.find?_eq_none] at hnone
      simpa using hnone e he
    rw [hidx, List.drop_eq_nil_of_le (Nat.le_succ _)] at hus
    exact hnil (List.map_eq_nil_iff.mp hus)

/-- Where no value is taken for a keyword and no token that is read is taken for another string, the
answer is right just when the first entry that fits says the same as the entry for the host, or the
default entry if there is none. A string is read back from its quotes when it fits into the
buffer. -/
theorem right_iff {es : List Entry} (file : File es)
    (hread : ∀ t ∈ file.read host, ¬ t.Misread) (h : Unambiguous es host wantUser wantPass) :
    (Right file host wantUser wantPass ↔
      answer wantUser wantPass (chosen es host) = answer wantUser wantPass (target es host)) ∧
    ∀ s f : List Char, '\x00' ∉ s → (netrcToken (quote s ++ f) = .token s f ↔ s.length < bufsiz) := by
  refine ⟨?_, fun s f hs => netrcToken_quote hs f⟩
  rw [Right, netrcLookup_eq file hread h, Option.some.injEq]

end

/-! ## Files -/

/-- A bare token behind a blank. -/
def bare (s : List Char) : Token := ⟨[' '], false, s⟩

/-- Entries with a user, and with a user and a password. -/
def withLogin (machine : Option (List Char)) (user : List Char) (h : user ≠ []) : Entry where
  machine := machine
  fields := [(.login, user)]
  once := by simp
  filled := by simpa using h

def withBoth (machine : Option (List Char)) (user pass : List Char) (h : user ≠ [] ∧ pass ≠ []) :
    Entry where
  machine := machine
  fields := [(.login, user), (.password, pass)]
  once := by simp
  filled := by simpa using h

def forA : Entry := withLogin (some ['a']) ['u'] (by decide)

def forOthers : Entry := withLogin none ['v'] (by decide)

/-- The user is called as a keyword. -/
def misleading : Entry := withBoth (some ['a']) passwordWord ['p'] (by decide)

def wordsOfA : List Token := [bare machineWord, bare ['a'], bare loginWord, bare ['u']]

def wordsOfOthers : List Token := [bare defaultWord, bare loginWord, bare ['v']]

/-- The default entry behind the entry for the host, with a backslash in front of its user. -/
def behind : File [forA, forOthers] where
  tokens := wordsOfA ++ [bare defaultWord, bare loginWord, bare ['\\', 'v']]
  tail := ['\n']
  sound := by decide
  separated := by decide
  blank := List.forall_mem_singleton.mpr (by decide)
  words := by decide

/-- The default entry in front of it. -/
def inFront : File [forOthers, forA] where
  tokens := wordsOfOthers ++ wordsOfA
  tail := ['\n']
  sound := by decide
  separated := by decide
  blank := List.forall_mem_singleton.mpr (by decide)
  words := by decide

def mistaken : File [misleading] where
  tokens := [bare machineWord, bare ['a'], bare loginWord, bare passwordWord, bare passwordWord,
    bare ['p']]
  tail := ['\n']
  sound := by decide
  separated := by decide
  blank := List.forall_mem_singleton.mpr (by decide)
  words := by decide

theorem right_iff_behind :
    (Right behind ['a'] true true ↔
      answer true true (chosen [forA, forOthers] ['a']) =
        answer true true (target [forA, forOthers] ['a'])) ∧
    ∀ s f : List Char, '\x00' ∉ s → (netrcToken (quote s ++ f) = .token s f ↔ s.length < bufsiz) :=
  right_iff behind (by decide) ⟨by decide, by decide⟩

/-- The default entry is taken where it stands in front; and a user called `password` is followed
by what is taken for the password. -/
theorem wrong_answers :
    netrcLookup inFront.text ['a'] true false = some { user := some ['v'] } ∧
      ¬ Right inFront ['a'] true false ∧
      netrcLookup mistaken.text ['a'] true true =
        some { user := some passwordWord, pass := some passwordWord } ∧
      ¬ Right mistaken ['a'] true true := by
  have hfront : netrcLookup inFront.text ['a'] true false = some { user := some ['v'] } := by
    decide +kernel
  have hmistaken : netrcLookup mistaken.text ['a'] true true =
      some { user := some passwordWord, pass := some passwordWord } := by
    decide +kernel
  refine ⟨hfront, ?_, hmistaken, ?_⟩
  · rw [Right, hfront]
    decide
  · rw [Right, hmistaken]
    decide

end Fdm.Netrc

import Fdm.Header

/-!
# What `find_address` finds

An address is a user part, an `@` and a domain part with something in front of it and behind it
that ends it. `find_address` looks at one `@` after the other; `signs` are those it comes to.

* `Address.unique`: the parts of an address are settled by its `@`;
* `accepted_iff`: which addresses pass the tests of `find_address`;
* `correct_iff`: when what it returns is the first address.
-/

namespace Fdm.FindAddress

open Mail

/-! ## Addresses -/

/-- A header cut into an address and what is around it. -/
structure Address (hdr front user domain after : List Char) : Prop where
  cut : hdr = front ++ (user ++ '@' :: domain) ++ after
  user_ne : user ≠ []
  user : ∀ c ∈ user, isUser c = true
  domain_ne : domain ≠ []
  domain : ∀ c ∈ domain, isDomain c = true
  before : ∀ c ∈ front.getLast?, isFirst c = true
  behind : ∀ c ∈ after.head?, isLast c = true
  angle : front.getLast? = some '<' ↔ after.head? = some '>'

/-- There is an address of `len` characters at `start`. -/
def Occurs (hdr : List Char) (start len : ℕ) : Prop :=
  ∃ front user domain after, Address hdr front user domain after ∧ start = front.length ∧
    len = (user ++ '@' :: domain).length

/-- The result is the first address, or there is none; nothing is read behind the string. -/
def Correct (hdr : List Char) : Option (Option (ℕ × ℕ)) → Prop
  | none => False
  | some none => ∀ start len, ¬ Occurs hdr start len
  | some (some (start, len)) => Occurs hdr start len ∧
      ∀ start' len', Occurs hdr start' len' → start ≤ start'

/-! ## What stands around an `@` -/

/-- The characters in front of the user part of the `@` at `k`. -/
def frontOf (hdr : List Char) (k : ℕ) : List Char := (hdr.take k).rdropWhile isUser

def userOf (hdr : List Char) (k : ℕ) : List Char := (hdr.take k).rtakeWhile isUser

def domainOf (hdr : List Char) (k : ℕ) : List Char := (hdr.drop (k + 1)).takeWhile isDomain

def afterOf (hdr : List Char) (k : ℕ) : List Char := (hdr.drop (k + 1)).dropWhile isDomain

/-- `last`. -/
def lastOf (hdr : List Char) (k : ℕ) : ℕ := k + 1 + (domainOf hdr k).length

/-- The tests that `find_address` makes. -/
def accepted (hdr : List Char) (k : ℕ) : Bool :=
  let last := lastOf hdr k
  let first := firstOf hdr (k - 1)
  !(hdr[last]?).any (!isLast ·) && !(first ≠ 0 && (hdr[first]?).any (!isFirst ·)) &&
    !(hdr[last]? = some '>' && hdr[first]? ≠ some '<') &&
    !(hdr[first]? = some '<' && hdr[last]? ≠ some '>')

/-- Where the address of an `@` that passes is said to start. -/
def startOf (hdr : List Char) (k : ℕ) : ℕ :=
  if firstOf hdr (k - 1) ≠ 0 then firstOf hdr (k - 1) + 1 else firstOf hdr (k - 1)

/-- The `@` leads `find_address` astray: it passes with an empty part, or with the one character in
front of its user part; or it fails with a domain part that goes on to the end. -/
def trap (hdr : List Char) (k : ℕ) : Bool :=
  if accepted hdr k then
    userOf hdr k = [] || domainOf hdr k = [] || (frontOf hdr k).length = 1
  else hdr.length ≤ lastOf hdr k

/-- The `@`s that are come to from `ptr` on. -/
def signs (hdr : List Char) : ℕ → ℕ → List ℕ
  | 0, _ => []
  | fuel + 1, ptr =>
    match (hdr.drop ptr).findIdx? (· = '@') with
    | none => []
    | some k => (ptr + k) :: signs hdr fuel (lastOf hdr (ptr + k) + 1)

/-- Up to the first `@` that passes there is no trap. -/
def safe (hdr : List Char) : List ℕ → Bool
  | [] => true
  | k :: ks => !trap hdr k && (accepted hdr k || safe hdr ks)

variable {hdr front user domain after : List Char} {k : ℕ}

/-! ## One address for each `@` -/

theorem not_isUser_of_isFirst {c : Char} (h : isFirst c = true) : isUser c = false := by
  rw [isFirst, Bool.or_eq_true, decide_eq_true_iff, decide_eq_true_iff] at h
  rcases h with rfl | rfl <;> decide

theorem not_isDomain_of_isFirst {c : Char} (h : isFirst c = true) : isDomain c = false := by
  rw [isFirst, Bool.or_eq_true, decide_eq_true_iff, decide_eq_true_iff] at h
  rcases h with rfl | rfl <;> decide

theorem not_isDomain_of_isLast {c : Char} (h : isLast c = true) : isDomain c = false := by
  rw [isLast] at h
  simp only [Bool.or_eq_true, decide_eq_true_eq] at h
  rcases h with ((rfl | rfl) | rfl) | rfl <;> decide

/-- The header around an `@`. -/
theorem cut_at (h : hdr[k]? = some '@') :
    hdr = frontOf hdr k ++ (userOf hdr k ++ '@' :: domainOf hdr k) ++ afterOf hdr k := by
  obtain ⟨hk, hsign⟩ := List.getElem?_eq_some_iff.mp h
  have hfront : frontOf hdr k ++ userOf hdr k = hdr.take k := List.rdropWhile_append_rtakeWhile
  have hbehind : domainOf hdr k ++ afterOf hdr k = hdr.drop (k + 1) :=
    List.takeWhile_append_dropWhile
  calc hdr = hdr.take k ++ hdr.drop k := (List.take_append_drop k hdr).symm
    _ = hdr.take k ++ '@' :: hdr.drop (k + 1) := by rw [List.drop_eq_getElem_cons hk, hsign]
    _ = (frontOf hdr k ++ userOf hdr k) ++ '@' :: (domainOf hdr k ++ afterOf hdr k) := by
      rw [hfront, hbehind]
    _ = _ := by simp

theorem rdropWhile_append_of_pos {p : Char → Bool} {s t : List Char} (h : ∀ c ∈ t, p c = true) :
    (s ++ t).rdropWhile p = s.rdropWhile p := by
  rw [List.rdropWhile, List.rdropWhile, List.reverse_append, List.dropWhile_append_of_pos]
  intro c hc
  exact h c (List.mem_reverse.mp hc)

theorem rtakeWhile_append_of_pos {p : Char → Bool} {s t : List Char} (h : ∀ c ∈ t, p c = true) :
    (s ++ t).rtakeWhile p = s.rtakeWhile p ++ t := by
  rw [List.rtakeWhile, List.rtakeWhile, List.reverse_append, List.takeWhile_append_of_pos,
    List.reverse_append, List.reverse_reverse]
  intro c hc
  exact h c (List.mem_reverse.mp hc)

/-- The parts of an address are those around its `@`. -/
theorem Address.unique (h : Address hdr front user domain after)
    (hk : k = front.length + user.length) :
    hdr[k]? = some '@' ∧ frontOf hdr k = front ∧ userOf hdr k = user ∧ domainOf hdr k = domain ∧
      afterOf hdr k = after := by
  have hcut : hdr = (front ++ user) ++ '@' :: (domain ++ after) := by
    rw [h.cut]
    simp
  have hlength : (front ++ user).length = k := by rw [List.length_append, hk]
  have htake : hdr.take k = front ++ user := by rw [hcut, ← hlength, List.take_left]
  have hdrop : hdr.drop (k + 1) = domain ++ after := by
    rw [hcut, ← hlength, ← List.drop_drop, List.drop_left]
    rfl
  have hfront : front.rdropWhile isUser = front := by
    rw [List.rdropWhile_eq_self_iff]
    intro hne
    have hfirst := h.before (front.getLast hne) (List.getLast?_eq_some_getLast hne)
    rw [not_isUser_of_isFirst hfirst]
    decide
  have hfront' : front.rtakeWhile isUser = [] := by
    rw [List.rtakeWhile_eq_nil_iff]
    exact List.rdropWhile_eq_self_iff.mp hfront
  have hafter : after.takeWhile isDomain = [] ∧ after.dropWhile isDomain = after := by
    cases hhead : after with
    | nil => exact ⟨rfl, rfl⟩
    | cons c t =>
      have hlast := h.behind c (by rw [hhead]; rfl)
      have hc : ¬ isDomain c = true := by
        rw [not_isDomain_of_isLast hlast]
        decide
      exact ⟨List.takeWhile_cons_of_neg hc, List.dropWhile_cons_of_neg hc⟩
  refine ⟨?_, ?_, ?_, ?_, ?_⟩
  · rw [hcut, ← hlength, List.getElem?_append_right (Nat.le_refl _), Nat.sub_self]
    rfl
  · rw [frontOf, htake, rdropWhile_append_of_pos h.user, hfront]
  · rw [userOf, htake, rtakeWhile_append_of_pos h.user, hfront', List.nil_append]
  · rw [domainOf, hdrop, List.takeWhile_append_of_pos h.domain, hafter.1, List.append_nil]
  · rw [afterOf, hdrop, List.dropWhile_append_of_pos h.domain, hafter.2]

/-! ## The tests -/

/-- Going back from the `@` ends in front of the user part, or at the start of the string. -/
theorem firstOf_eq (h : hdr[k]? = some '@') : firstOf hdr (k - 1) = (frontOf hdr k).length - 1 := by
  have hback : ∀ n, n < k → firstOf hdr n = ((hdr.take (n + 1)).rdropWhile isUser).length - 1 := by
    intro n hn
    have hlength := (List.getElem?_eq_some_iff.mp h).1
    induction n with
    | zero =>
      have hshort : ((hdr.take (0 + 1)).rdropWhile isUser).length ≤ (hdr.take (0 + 1)).length :=
        (List.rdropWhile_prefix _ _).length_le
      rw [List.length_take] at hshort
      rw [firstOf]
      omega
    | succ n ih =>
      have hlast : n + 1 < hdr.length := by omega
      have htake : hdr.take (n + 1 + 1) = hdr.take (n + 1) ++ [hdr[n + 1]] :=
        List.take_succ_eq_append_getElem hlast
      rw [firstOf, List.getElem?_eq_getElem hlast, Option.any_some, htake]
      by_cases huser : isUser hdr[n + 1] = true
      · rw [if_pos huser, List.rdropWhile_concat_pos _ _ _ huser, ih (by omega)]
      · rw [if_neg huser, List.rdropWhile_concat_neg _ _ _ huser, List.length_append,
          List.length_take, List.length_singleton]
        omega
  cases k with
  | zero =>
    rw [frontOf, List.take_zero, List.rdropWhile_nil]
    rfl
  | succ k => exact hback k (Nat.lt_succ_self k)

theorem length_cut (h : hdr[k]? = some '@') : k = (frontOf hdr k).length + (userOf hdr k).length := by
  have hfront : frontOf hdr k ++ userOf hdr k = hdr.take k := List.rdropWhile_append_rtakeWhile
  have hk := (List.getElem?_eq_some_iff.mp h).1
  have hlength := congrArg List.length hfront
  rw [List.length_append, List.length_take] at hlength
  omega

theorem getElem?_cut (h : hdr[k]? = some '@') (i : ℕ) :
    hdr[i]? = (frontOf hdr k ++ (userOf hdr k ++ '@' :: domainOf hdr k) ++ afterOf hdr k)[i]? :=
  congrArg (·[i]?) (cut_at h)

theorem getElem?_lastOf (h : hdr[k]? = some '@') :
    hdr[lastOf hdr k]? = (afterOf hdr k).head? := by
  have hlength := length_cut h
  have hlast : lastOf hdr k =
      (frontOf hdr k ++ (userOf hdr k ++ '@' :: domainOf hdr k)).length := by
    rw [lastOf, List.length_append, List.length_append, List.length_cons]
    omega
  rw [getElem?_cut h, hlast, List.getElem?_append_right (Nat.le_refl _), Nat.sub_self]
  cases afterOf hdr k <;> rfl

/-- What the tests look at in front: the last character of the front part, or the first of the
user part. -/
theorem getElem?_firstOf (h : hdr[k]? = some '@') (hk : k ≠ 0) :
    hdr[firstOf hdr (k - 1)]? =
      if frontOf hdr k = [] then (userOf hdr k).head? else (frontOf hdr k).getLast? := by
  have hlength := length_cut h
  rw [firstOf_eq h, getElem?_cut h]
  by_cases hfront : frontOf hdr k = []
  · rw [if_pos hfront, hfront]
    cases huser : userOf hdr k with
    | nil =>
      rw [hfront, huser] at hlength
      exact absurd hlength hk
    | cons c t => rfl
  · have hpos := List.length_pos_iff.mpr hfront
    rw [if_neg hfront, List.getLast?_eq_getElem?, List.append_assoc,
      List.getElem?_append_left (by omega)]

theorem accepted_iff (hdr : List Char) (k : ℕ) :
    accepted hdr k = true ↔
      (∀ c ∈ hdr[lastOf hdr k]?, isLast c = true) ∧
      (firstOf hdr (k - 1) ≠ 0 → ∀ c ∈ hdr[firstOf hdr (k - 1)]?, isFirst c = true) ∧
      (hdr[lastOf hdr k]? = some '>' → hdr[firstOf hdr (k - 1)]? = some '<') ∧
      (hdr[firstOf hdr (k - 1)]? = some '<' → hdr[lastOf hdr k]? = some '>') := by
  have hany : ∀ (p : Char → Bool) (x : Option Char),
      (!x.any (!p ·)) = true ↔ ∀ c ∈ x, p c = true := by
    intro p x
    cases x <;> simp
  rw [accepted, Bool.and_eq_true, Bool.and_eq_true, Bool.and_eq_true, hany, and_assoc, and_assoc]
  refine and_congr_right fun _ => and_congr ?_ (and_congr ?_ ?_)
  · rw [Bool.not_and, Bool.or_eq_true, hany]
    by_cases hfirst : firstOf hdr (k - 1) = 0
    · simp [hfirst]
    · simp [hfirst]
  · by_cases hlast : hdr[lastOf hdr k]? = some '>'
    · simp [hlast]
    · simp [hlast]
  · by_cases hfirst : hdr[firstOf hdr (k - 1)]? = some '<'
    · simp [hfirst]
    · simp [hfirst]

theorem head_user_ne (huser : ∀ c ∈ user, isUser c = true) : user.head? ≠ some '<' := by
  intro hhead
  have hmem := huser '<' (List.mem_of_mem_head? hhead)
  exact absurd hmem (by decide)

/-- An address passes. -/
theorem Address.accepted (h : Address hdr front user domain after)
    (hk : k = front.length + user.length) : accepted hdr k = true := by
  obtain ⟨hsign, hfront, huser, -, hafter⟩ := h.unique hk
  have hpos := List.length_pos_iff.mpr h.user_ne
  have hfirst := getElem?_firstOf hsign (by omega)
  rw [hfront, huser] at hfirst
  rw [accepted_iff, getElem?_lastOf hsign, hafter, hfirst, firstOf_eq hsign, hfront]
  refine ⟨h.behind, ?_, ?_, ?_⟩
  · intro hne
    rw [if_neg (by rintro rfl; exact hne rfl)]
    exact h.before
  · intro hlast
    have hangle := h.angle.mpr hlast
    rw [if_neg (by rintro rfl; cases hangle)]
    exact hangle
  · by_cases hnil : front = []
    · rw [if_pos hnil]
      intro hhead
      exact absurd hhead (head_user_ne h.user)
    · rw [if_neg hnil]
      exact h.angle.mp

theorem isUser_of_mem_userOf {c : Char} (hc : c ∈ userOf hdr k) : isUser c = true :=
  List.mem_rtakeWhile_imp hc

/-- What passes, and is no trap, is an address. -/
theorem address_of_accepted (h : hdr[k]? = some '@') (hk : k ≠ 0) (haccepted : accepted hdr k = true)
    (htrap : trap hdr k = false) :
    Address hdr (frontOf hdr k) (userOf hdr k) (domainOf hdr k) (afterOf hdr k) ∧
      startOf hdr k = (frontOf hdr k).length := by
  have hfirst := getElem?_firstOf h hk
  have hvalue := firstOf_eq h
  rw [trap, if_pos haccepted] at htrap
  simp only [Bool.or_eq_false_iff, decide_eq_false_iff_not] at htrap
  obtain ⟨⟨huser, hdomain⟩, hfront⟩ := htrap
  rw [accepted_iff, getElem?_lastOf h, hfirst] at haccepted
  obtain ⟨hlast, hbefore, hclosed, hopened⟩ := haccepted
  have husers : ∀ c ∈ userOf hdr k, isUser c = true := fun c hc => isUser_of_mem_userOf hc
  refine ⟨⟨cut_at h, huser, husers, hdomain, ?_, ?_, hlast, ?_⟩, ?_⟩
  · intro c hc
    exact List.mem_takeWhile_imp hc
  · by_cases hnil : frontOf hdr k = []
    · rw [hnil]
      nofun
    · have hpos := List.length_pos_iff.mpr hnil
      rw [if_neg hnil] at hbefore
      exact hbefore (by omega)
  · by_cases hnil : frontOf hdr k = []
    · rw [if_pos hnil] at hclosed
      rw [hnil]
      refine iff_of_false nofun fun hafter => ?_
      exact absurd (hclosed hafter) (head_user_ne husers)
    · rw [if_neg hnil] at hclosed hopened
      exact ⟨hopened, hclosed⟩
  · rw [startOf, hvalue]
    split_ifs with hzero
    · omega
    · omega

/-- Whatever is an address at `start` up to the `last` of an `@` is the address of this `@`. -/
theorem address_of_occurs (h : hdr[k]? = some '@')
    (hoccurs : Occurs hdr (startOf hdr k) (lastOf hdr k - startOf hdr k)) :
    Address hdr (frontOf hdr k) (userOf hdr k) (domainOf hdr k) (afterOf hdr k) ∧
      startOf hdr k = (frontOf hdr k).length := by
  obtain ⟨front, user, domain, after, haddress, hstart, hlen⟩ := hoccurs
  -- the span has one `@`, which is the one at `k`
  have hbefore : startOf hdr k ≤ k := by
    have hvalue := firstOf_eq h
    have hlength := length_cut h
    rw [startOf]
    split_ifs <;> omega
  have hbehind : k < lastOf hdr k := by
    rw [lastOf]
    omega
  rw [List.length_append, List.length_cons] at hlen
  have hsame : k = front.length + user.length := by
    have hat : hdr[k]? = (user ++ '@' :: domain)[k - front.length]? := by
      rw [haddress.cut, List.append_assoc, List.getElem?_append_right (by omega),
        List.getElem?_append_left (by simp; omega)]
    rw [h] at hat
    by_cases hlow : k - front.length < user.length
    · rw [List.getElem?_append_left hlow] at hat
      have hmem := haddress.user '@' (List.mem_of_getElem? hat.symm)
      exact absurd hmem (by decide)
    · rw [List.getElem?_append_right (by omega)] at hat
      by_cases hhigh : k - front.length - user.length = 0
      · omega
      · obtain ⟨i, hi⟩ : ∃ i, k - front.length - user.length = i + 1 :=
          ⟨k - front.length - user.length - 1, by omega⟩
        rw [hi, List.getElem?_cons_succ] at hat
        have hmem := haddress.domain '@' (List.mem_of_getElem? hat.symm)
        exact absurd hmem (by decide)
  obtain ⟨-, hfront, huser, hdomain, hafter⟩ := haddress.unique hsame
  rw [hfront, huser, hdomain, hafter]
  exact ⟨haddress, hstart⟩

/-- What passes is returned rightly just when it is no trap. -/
theorem occurs_iff (h : hdr[k]? = some '@') (hk : k ≠ 0) (haccepted : accepted hdr k = true) :
    Occurs hdr (startOf hdr k) (lastOf hdr k - startOf hdr k) ↔ trap hdr k = false := by
  have hlength := length_cut h
  constructor
  · intro hoccurs
    obtain ⟨haddress, hstart⟩ := address_of_occurs h hoccurs
    rw [trap, if_pos haccepted]
    simp only [Bool.or_eq_false_iff, decide_eq_false_iff_not]
    refine ⟨⟨haddress.user_ne, haddress.domain_ne⟩, ?_⟩
    rw [startOf, firstOf_eq h] at hstart
    split_ifs at hstart
    · omega
    · omega
  · intro htrap
    obtain ⟨haddress, hstart⟩ := address_of_accepted h hk haccepted htrap
    refine ⟨_, _, _, _, haddress, hstart, ?_⟩
    rw [hstart, lastOf, List.length_append, List.length_cons]
    omega

/-! ## The search -/

variable {fuel ptr : ℕ}

theorem findAddressFrom_succ (hdr : List Char) (fuel ptr : ℕ) :
    findAddressFrom hdr (fuel + 1) ptr =
      if hdr.length < ptr then none
      else
        match (hdr.drop ptr).findIdx? (· = '@') with
        | none => some none
        | some k =>
          if accepted hdr (ptr + k) then
            some (some (startOf hdr (ptr + k), lastOf hdr (ptr + k) - startOf hdr (ptr + k)))
          else findAddressFrom hdr fuel (lastOf hdr (ptr + k) + 1) := by
  rw [findAddressFrom]
  cases (hdr.drop ptr).findIdx? (· = '@') with
  | none => rfl
  | some k =>
    dsimp only
    congr 1
    have hlast : ptr + k + 1 + ((hdr.drop (ptr + k + 1)).takeWhile isDomain).length =
        lastOf hdr (ptr + k) := rfl
    rw [hlast]
    by_cases h₁ : (hdr[lastOf hdr (ptr + k)]?).any (!isLast ·) = true
    · rw [if_pos h₁, if_neg]
      simp [accepted, h₁]
    rw [if_neg h₁]
    by_cases h₂ : firstOf hdr (ptr + k - 1) ≠ 0 ∧
        (hdr[firstOf hdr (ptr + k - 1)]?).any (!isFirst ·) = true
    · rw [if_pos h₂, if_neg]
      simp [accepted, h₂]
    rw [if_neg h₂]
    by_cases h₃ : hdr[lastOf hdr (ptr + k)]? = some '>' ∧
        hdr[firstOf hdr (ptr + k - 1)]? ≠ some '<'
    · rw [if_pos h₃, if_neg]
      simp [accepted, h₃]
    rw [if_neg h₃]
    by_cases h₄ : hdr[firstOf hdr (ptr + k - 1)]? = some '<' ∧
        hdr[lastOf hdr (ptr + k)]? ≠ some '>'
    · rw [if_pos h₄, if_neg]
      simp [accepted, h₄]
    have haccepted : accepted hdr (ptr + k) = true := by
      simp only [accepted, Bool.and_eq_true, Bool.not_eq_true']
      refine ⟨⟨⟨?_, ?_⟩, ?_⟩, ?_⟩
      · exact Bool.eq_false_iff.mpr h₁
      · rw [Bool.eq_false_iff]
        simpa using h₂
      · rw [Bool.eq_false_iff]
        simpa using h₃
      · rw [Bool.eq_false_iff]
        simpa using h₄
    rw [if_neg h₄, haccepted]
    exact (if_pos rfl).symm

/-- The first `@` from `ptr` on. -/
theorem sign_of_findIdx {j : ℕ} (h : (hdr.drop ptr).findIdx? (· = '@') = some j) :
    hdr[ptr + j]? = some '@' ∧ ∀ i, ptr ≤ i → i < ptr + j → hdr[i]? ≠ some '@' := by
  rw [List.findIdx?_eq_some_iff_getElem] at h
  obtain ⟨hj, hsign, hearlier⟩ := h
  rw [List.length_drop] at hj
  constructor
  · rw [List.getElem_drop, decide_eq_true_iff] at hsign
    rw [List.getElem?_eq_getElem (by omega), hsign]
  · intro i hlow hhigh hi
    have hnot := hearlier (i - ptr) (by omega)
    rw [List.getElem_drop, decide_eq_true_iff] at hnot
    obtain ⟨hlength, hi⟩ := List.getElem?_eq_some_iff.mp hi
    apply hnot
    rw [← hi]
    congr 1
    omega

/-- A user part has no `@` in it. -/
theorem Address.lt_front {i : ℕ} (h : Address hdr front user domain after)
    (hi : hdr[i]? = some '@') (hlow : i < front.length + user.length) : i < front.length := by
  by_contra hge
  have hat : hdr[i]? = user[i - front.length]? := by
    rw [h.cut, List.append_assoc, List.append_assoc, List.getElem?_append_right (by omega),
      List.getElem?_append_left (by omega)]
  rw [hi] at hat
  have hmem := h.user '@' (List.mem_of_getElem? hat.symm)
  exact absurd hmem (by decide)

/-- No address is passed over. -/
theorem Address.next (h : Address hdr front user domain after) (hsign : hdr[k]? = some '@')
    (hlow : k < front.length + user.length) : lastOf hdr k < front.length + user.length := by
  have hthere := (h.unique rfl).1
  have hfront := h.lt_front hsign hlow
  have hpos := List.length_pos_iff.mpr h.user_ne
  -- what is in front of the user part is neither an `@` nor in a domain part
  obtain ⟨c, hc⟩ : ∃ c, front.getLast? = some c :=
    ⟨_, List.getLast?_eq_some_getLast (List.ne_nil_of_length_pos (by omega))⟩
  have hfirst := h.before c hc
  have hat : hdr[front.length - 1]? = some c := by
    rw [List.getLast?_eq_getElem?] at hc
    rw [h.cut, List.append_assoc, List.getElem?_append_left (by omega), hc]
  have hin : ∀ i, k < i → i < lastOf hdr k → ∃ d, hdr[i]? = some d ∧ isDomain d = true := by
    intro i hki hilast
    rw [lastOf] at hilast
    have hi : i - (k + 1) < (domainOf hdr k).length := by omega
    have hprefix : domainOf hdr k <+: hdr.drop (k + 1) := List.takeWhile_prefix _
    refine ⟨(domainOf hdr k)[i - (k + 1)], ?_, ?_⟩
    · obtain ⟨t, ht⟩ := hprefix
      have hget : (hdr.drop (k + 1))[i - (k + 1)]? = some (domainOf hdr k)[i - (k + 1)] := by
        rw [← ht, List.getElem?_append_left hi, List.getElem?_eq_getElem hi]
      rw [List.getElem?_drop] at hget
      rw [← hget]
      congr 1
      omega
    · exact List.mem_takeWhile_imp (List.getElem_mem hi)
  by_contra hlast
  rcases Nat.lt_trichotomy (front.length - 1) k with hlt | heq | hgt
  · omega
  · rw [heq, hsign] at hat
    rw [← Option.some.inj hat] at hfirst
    exact absurd hfirst (by decide)
  · obtain ⟨d, hd, hdomain⟩ := hin (front.length - 1) hgt (by omega)
    rw [hat] at hd
    rw [← Option.some.inj hd, not_isDomain_of_isFirst hfirst] at hdomain
    cases hdomain

/-- The search from `ptr` on, when no address is in front of it. -/
theorem correct_from (hfuel : hdr.length < ptr + fuel) (hptr : ptr ≤ hdr.length) (hpos : ptr ≠ 0)
    (hnone : ∀ {front user domain after}, Address hdr front user domain after →
      ptr ≤ front.length + user.length) :
    Correct hdr (findAddressFrom hdr fuel ptr) ↔ safe hdr (signs hdr fuel ptr) = true := by
  induction fuel generalizing ptr with
  | zero => omega
  | succ fuel ih =>
    rw [findAddressFrom_succ, if_neg (by omega), signs]
    cases hfind : (hdr.drop ptr).findIdx? (· = '@') with
    | none =>
      refine iff_of_true ?_ rfl
      rintro start len ⟨front, user, domain, after, h, -, -⟩
      have hsign := (h.unique rfl).1
      have hlow := hnone h
      rw [List.findIdx?_eq_none_iff] at hfind
      have hmem : '@' ∈ hdr.drop ptr := by
        apply List.mem_of_getElem? (i := front.length + user.length - ptr)
        rw [List.getElem?_drop, ← hsign]
        congr 1
        omega
      simpa using hfind '@' hmem
    | some j =>
      obtain ⟨hsign, hearlier⟩ := sign_of_findIdx hfind
      have hlength := (List.getElem?_eq_some_iff.mp hsign).1
      dsimp only
      rw [safe]
      by_cases haccepted : accepted hdr (ptr + j) = true
      · rw [if_pos haccepted, haccepted, Bool.true_or, Bool.and_true, Bool.not_eq_true',
          ← occurs_iff hsign (by omega) haccepted]
        refine and_iff_left_of_imp fun hoccurs => ?_
        obtain ⟨haddress, hstart⟩ := address_of_occurs hsign hoccurs
        rintro start' len' ⟨front, user, domain, after, h, rfl, -⟩
        have hlow := hnone h
        have hthere := (h.unique rfl).1
        rcases Nat.lt_trichotomy (front.length + user.length) (ptr + j) with hlt | heq | hgt
        · exact absurd hthere (hearlier _ hlow hlt)
        · rw [hstart, (h.unique heq.symm).2.1]
        · have hfront := h.lt_front hsign hgt
          have hcut := length_cut hsign
          omega
      · rw [if_neg haccepted, Bool.eq_false_iff.mpr haccepted, Bool.false_or, trap,
          if_neg haccepted]
        by_cases hend : hdr.length ≤ lastOf hdr (ptr + j)
        · -- the search goes on behind the end
          obtain ⟨fuel, rfl⟩ : ∃ n, fuel = n + 1 := ⟨fuel - 1, by omega⟩
          rw [findAddressFrom_succ, if_pos (by omega), decide_eq_true hend]
          exact iff_of_false id nofun
        · rw [decide_eq_false hend, Bool.not_false, Bool.true_and]
          have hlast : ptr + j < lastOf hdr (ptr + j) := by
            rw [lastOf]
            omega
          apply ih
          · omega
          · omega
          · omega
          · intro front user domain after h
            have hlow := hnone h
            have hthere := (h.unique rfl).1
            rcases Nat.lt_trichotomy (front.length + user.length) (ptr + j) with hlt | heq | hgt
            · exact absurd hthere (hearlier _ hlow hlt)
            · exact absurd (h.accepted heq.symm) haccepted
            · exact h.next hsign hgt

theorem length_blankQuoted (quoted : Bool) (s : List Char) :
    (blankQuoted quoted s).length = s.length := by
  induction s generalizing quoted with
  | nil => rfl
  | cons c s ih =>
    rw [blankQuoted]
    split_ifs <;> rw [List.length_cons, List.length_cons, ih]

/-- A header: a string, which has no NUL. -/
abbrev Header := { s : List Char // '\x00' ∉ s }

/-- What `find_address` returns is the first address, with quoted text blanked, just when no `@` up
to the first that passes is a trap. -/
theorem correct_iff (buf : Header) :
    Correct (blankQuoted false buf.val) (findAddress buf.val) ↔
      safe (blankQuoted false buf.val)
        (signs (blankQuoted false buf.val) ((blankQuoted false buf.val).length + 1) 1) = true := by
  have hplain : cString buf.val = buf.val := by
    rw [cString, List.takeWhile_eq_self_iff]
    intro c hc
    rw [decide_eq_true_iff]
    rintro rfl
    exact buf.property hc
  have hempty : ∀ {front user domain after}, Address [] front user domain after → False := by
    intro front user domain after h
    have hcut := h.cut
    simp at hcut
  rw [findAddress, hplain]
  by_cases hbuf : buf.val = []
  · rw [if_pos hbuf, hbuf]
    refine iff_of_true ?_ rfl
    rintro start len ⟨front, user, domain, after, h, -, -⟩
    exact hempty h
  · rw [if_neg hbuf]
    have hlength : (blankQuoted false buf.val).length = buf.val.length := length_blankQuoted _ _
    have hpos := List.length_pos_iff.mpr hbuf
    apply correct_from
    · omega
    · omega
    · decide
    · intro front user domain after h
      have hlow := List.length_pos_iff.mpr h.user_ne
      omega

/-- What a usual header looks like. -/
example : safe (blankQuoted false ['a', ' ', '<', 'c', '@', 'd', '>'])
    (signs (blankQuoted false ['a', ' ', '<', 'c', '@', 'd', '>']) 8 1) = true := by decide

/-- A bracket at the start is taken for a part of the address; an empty user part passes; a missing
bracket at the end leads behind the string. -/
theorem not_correct_samples :
    findAddress ['<', 'a', '@', 'b', '>'] = some (some (0, 4)) ∧
      ¬ Correct ['<', 'a', '@', 'b', '>'] (findAddress ['<', 'a', '@', 'b', '>']) ∧
      ¬ Correct ['a', ' ', '@', 'b'] (findAddress ['a', ' ', '@', 'b']) ∧
      ¬ Correct [' ', '<', 'a', '@', 'b'] (findAddress [' ', '<', 'a', '@', 'b']) := by
  refine ⟨by decide, fun h => ?_, fun h => ?_, fun h => ?_⟩
  · have hfound : findAddress ['<', 'a', '@', 'b', '>'] = some (some (0, 4)) := by decide
    rw [hfound] at h
    have htrap : trap ['<', 'a', '@', 'b', '>'] 2 = false :=
      (occurs_iff (by decide) (by decide) (by decide)).mp h.1
    exact absurd htrap (by decide)
  · have hfound : findAddress ['a', ' ', '@', 'b'] = some (some (2, 2)) := by decide
    rw [hfound] at h
    have htrap : trap ['a', ' ', '@', 'b'] 2 = false :=
      (occurs_iff (by decide) (by decide) (by decide)).mp h.1
    exact absurd htrap (by decide)
  · have hlost : findAddress [' ', '<', 'a', '@', 'b'] = none := by decide
    rw [hlost] at h
    exact h

end Fdm.FindAddress

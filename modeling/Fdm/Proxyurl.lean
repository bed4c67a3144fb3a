import Fdm.Lib.Strchr
import Mathlib.Data.List.DropRight

/-!
# Proxy URLs

`getproxy` of `connect.c`: a copy of the URL is cut at its separators, in the order protocol,
trailing slashes, user and password, port. The URLs that it takes are the renderings of their
components.
-/

namespace Fdm.Proxyurl

open Lib.Strchr

/-! ## The code -/

/-- `enum proxytype`. -/
inductive Proxytype
  | http
  | https
  | socks5
deriving DecidableEq, Repr

/-- The fields of `struct server` that are filled in. -/
structure Server where
  host : List Char
  port : List Char
  ssl : Bool
deriving DecidableEq, Repr

/-- `struct proxy`. -/
structure Proxy where
  type : Proxytype
  user : Option (List Char)
  pass : Option (List Char)
  server : Server
deriving DecidableEq, Repr

/-- An entry of `proxylist`. -/
structure Proxyent where
  proto : List Char
  type : Proxytype
  ssl : Bool
  port : List Char
deriving DecidableEq, Repr

def proxylist : List Proxyent :=
  [⟨['h', 't', 't', 'p', ':', '/', '/'], .http, false, ['h', 't', 't', 'p']⟩,
    ⟨['h', 't', 't', 'p', 's', ':', '/', '/'], .https, true, ['h', 't', 't', 'p', 's']⟩,
    ⟨['s', 'o', 'c', 'k', 's', ':', '/', '/'], .socks5, false, ['s', 'o', 'c', 'k', 's']⟩,
    ⟨['s', 'o', 'c', 'k', 's', '5', ':', '/', '/'], .socks5, false, ['s', 'o', 'c', 'k', 's']⟩]

/-- Strip trailing `/` characters. -/
def stripSlashes (url : List Char) : List Char := url.rdropWhile (· = '/')

/-- Look for a user and a password: they are what is in front of the first `@`, cut at the first
`:`. -/
def findLogin (url : List Char) : Option (Option (List Char × List Char) × List Char) :=
  match strchr url '@' with
  | none => some (none, url)
  | some e =>
    match strchr url ':' with
    | none => none
    | some ptr =>
      if e ≤ ptr then none
      else
        let user := url.take ptr
        let pass := (url.take e).drop (ptr + 1)
        if user = [] ∨ pass = [] then none else some (some (user, pass), url.drop (e + 1))

/-- Extract the host, and the port if it is available. -/
def findPort (port url : List Char) : Option (List Char × List Char) :=
  match strchr url ':' with
  | none => some (url, port)
  | some ptr =>
    if url.drop (ptr + 1) = [] then none else some (url.take ptr, url.drop (ptr + 1))

/-- `getproxy`; `none` is NULL. -/
def getproxy (xurl : List Char) : Option Proxy :=
  match proxylist.find? fun proxyent => proxyent.proto.isPrefixOf xurl with
  | none => none
  | some proxyent =>
    let url := stripSlashes (xurl.drop proxyent.proto.length)
    if url = [] then none
    else
      (findLogin url).bind fun (login, url) =>
        (findPort proxyent.port url).bind fun (host, port) =>
          if host = [] then none
          else
            some
              { type := proxyent.type
                user := login.map Prod.fst
                pass := login.map Prod.snd
                server := { host := host, port := port, ssl := proxyent.ssl } }

/-! ## The components -/

/-- A user and a password. -/
structure Login where
  user : List Char
  pass : List Char
  user_ne : user ≠ []
  user_plain : ':' ∉ user ∧ '@' ∉ user
  pass_ne : pass ≠ []
  pass_plain : '@' ∉ pass

/-- The components of a URL. Without a user an `@` would make one. -/
structure Url where
  proxyent : Proxyent
  known : proxyent ∈ proxylist
  login : Option Login
  host : List Char
  host_ne : host ≠ []
  host_plain : ':' ∉ host
  port : Option (List Char)
  port_ne : ∀ p ∈ port, p ≠ []
  plain : login = none → '@' ∉ host ∧ ∀ p ∈ port, '@' ∉ p
  last : (port.getD host).getLast? ≠ some '/'

/-- `user:password@`. -/
def Login.render (l : Login) : List Char := l.user ++ ':' :: l.pass ++ ['@']

/-- `host` or `host:port`. -/
def Url.address (u : Url) : List Char := u.host ++ u.port.elim [] (fun p => ':' :: p)

/-- A URL with some slashes at its end. -/
def Url.render (u : Url) (slashes : ℕ) : List Char :=
  u.proxyent.proto ++ (u.login.elim [] Login.render ++ u.address) ++ List.replicate slashes '/'

/-- What the components say. -/
def Url.proxy (u : Url) : Proxy where
  type := u.proxyent.type
  user := u.login.map Login.user
  pass := u.login.map Login.pass
  server := { host := u.host, port := u.port.getD u.proxyent.port, ssl := u.proxyent.ssl }

/-! ## The parts -/

theorem find_proxyent {e : Proxyent} (h : e ∈ proxylist) (rest : List Char) :
    (proxylist.find? fun proxyent => proxyent.proto.isPrefixOf (e.proto ++ rest)) = some e := by
  simp only [proxylist, List.mem_cons, List.not_mem_nil, or_false] at h
  rcases h with rfl | rfl | rfl | rfl
  · simp [proxylist, List.isPrefixOf]
  · simp [proxylist, List.find?, List.isPrefixOf]
  · simp [proxylist, List.find?, List.isPrefixOf]
  · simp [proxylist, List.find?, List.isPrefixOf]

theorem stripSlashes_append {s : List Char} (h : s.getLast? ≠ some '/') (n : ℕ) :
    stripSlashes (s ++ List.replicate n '/') = s := by
  induction n with
  | zero =>
    rw [List.replicate_zero, List.append_nil, stripSlashes, List.rdropWhile_eq_self_iff]
    intro hne hlast
    rw [List.getLast?_eq_some_getLast hne] at h
    exact h (by simpa using hlast)
  | succ n ih =>
    rw [List.replicate_succ', ← List.append_assoc, stripSlashes,
      List.rdropWhile_concat_pos _ _ _ (by simp)]
    exact ih

theorem exists_slashes (s : List Char) :
    ∃ n, s = stripSlashes s ++ List.replicate n '/' ∧ (stripSlashes s).getLast? ≠ some '/' := by
  induction s using List.reverseRecOn with
  | nil => exact ⟨0, rfl, by simp [stripSlashes]⟩
  | append_singleton s c ih =>
    by_cases hc : c = '/'
    · obtain ⟨n, hs, hlast⟩ := ih
      have hstrip : stripSlashes (s ++ [c]) = stripSlashes s := by
        rw [stripSlashes, List.rdropWhile_concat_pos _ _ _ (by simpa using hc)]
        rfl
      refine ⟨n + 1, ?_, by rwa [hstrip]⟩
      rw [hstrip, List.replicate_succ', ← List.append_assoc, ← hs, hc]
    · have hstrip : stripSlashes (s ++ [c]) = s ++ [c] := by
        rw [stripSlashes, List.rdropWhile_concat_neg _ _ _ (by simpa using hc)]
      exact ⟨0, by simp [hstrip], by simpa [hstrip] using hc⟩

/-- The login of a URL is found. -/
theorem findLogin_render (l : Login) (rest : List Char) :
    findLogin (l.render ++ rest) = some (some (l.user, l.pass), rest) := by
  have hat : '@' ∉ l.user ++ ':' :: l.pass := by
    simpa using ⟨l.user_plain.2, l.pass_plain⟩
  have htext : l.render ++ rest = l.user ++ ':' :: l.pass ++ '@' :: rest := by
    rw [Login.render, List.append_assoc]
    rfl
  have hsplit : l.render ++ rest = l.user ++ ':' :: (l.pass ++ '@' :: rest) := by
    rw [htext, List.append_assoc]
    rfl
  have hend : strchr (l.render ++ rest) '@' = some (l.user ++ ':' :: l.pass).length := by
    rw [htext]
    exact strchr_append hat rest
  have hptr : strchr (l.render ++ rest) ':' = some l.user.length := by
    rw [hsplit]
    exact strchr_append l.user_plain.1 _
  have huser : (l.render ++ rest).take l.user.length = l.user := by
    rw [hsplit, List.take_left]
  have hpass : ((l.render ++ rest).take (l.user ++ ':' :: l.pass).length).drop
      (l.user.length + 1) = l.pass := by
    rw [htext, List.take_left, drop_behind]
  have hrest : (l.render ++ rest).drop ((l.user ++ ':' :: l.pass).length + 1) = rest := by
    rw [htext, drop_behind]
  have hlt : ¬ (l.user ++ ':' :: l.pass).length ≤ l.user.length := by
    simp
  rw [findLogin, hend]
  dsimp only
  rw [hptr]
  dsimp only
  rw [if_neg hlt, huser, hpass, hrest, if_neg (not_or.2 ⟨l.user_ne, l.pass_ne⟩)]

/-- A login that is found is one of a URL. -/
theorem exists_of_findLogin {url rest : List Char} {login : Option (List Char × List Char)}
    (h : findLogin url = some (login, rest)) :
    login = none ∧ rest = url ∧ '@' ∉ url ∨
      ∃ l : Login, login = some (l.user, l.pass) ∧ url = l.render ++ rest := by
  unfold findLogin at h
  split at h
  · next hend =>
    cases h
    exact .inl ⟨rfl, rfl, strchr_eq_none.1 hend⟩
  · next e hend =>
    split at h
    · cases h
    · next ptr hptr =>
      split at h
      · cases h
      · next hlt =>
        dsimp only at h
        split at h
        · cases h
        · next hne =>
          obtain ⟨a, b, ha, rfl, rfl⟩ := exists_of_strchr hend
          obtain ⟨user, d, huser, hsplit, rfl⟩ := exists_of_strchr hptr
          -- the first colon is in front of the first at-sign
          obtain ⟨pass, rfl⟩ : ∃ pass, a = user ++ ':' :: pass := by
            rcases List.append_eq_append_iff.1 hsplit with ⟨x, rfl, -⟩ | ⟨x, rfl, hx⟩
            · rw [List.length_append] at hlt
              omega
            · cases x with
              | nil => simp at hlt
              | cons y x =>
                obtain ⟨rfl, -⟩ := List.cons_eq_cons.1 hx
                exact ⟨x, rfl⟩
          have htake : (user ++ ':' :: pass ++ '@' :: b).take user.length = user := by
            rw [List.append_assoc, List.take_left]
          have hpass : ((user ++ ':' :: pass ++ '@' :: b).take (user ++ ':' :: pass).length).drop
              (user.length + 1) = pass := by
            rw [List.take_left, drop_behind]
          rw [htake, hpass, not_or] at hne
          rw [htake, hpass, drop_behind] at h
          cases h
          have hat : '@' ∉ user ∧ '@' ∉ pass := by simpa using ha
          refine .inr ⟨⟨user, pass, hne.1, ⟨huser, hat.1⟩, hne.2, hat.2⟩, rfl, ?_⟩
          rw [Login.render]
          simp

/-- The host and the port of a URL are found. -/
theorem findPort_address (u : Url) :
    findPort u.proxyent.port u.address = some (u.host, u.port.getD u.proxyent.port) := by
  cases hport : u.port with
  | none =>
    have haddress : u.address = u.host := by
      rw [Url.address, hport]
      exact List.append_nil _
    rw [haddress, findPort, strchr_eq_none.2 u.host_plain]
    rfl
  | some p =>
    have haddress : u.address = u.host ++ ':' :: p := by
      rw [Url.address, hport]
      rfl
    have hp : p ≠ [] := u.port_ne p hport
    rw [haddress, findPort, strchr_append u.host_plain]
    dsimp only
    rw [drop_behind, if_neg hp, List.take_left]
    rfl

/-- What is found is a host that may have a port behind it. -/
theorem exists_of_findPort {url host port port' : List Char}
    (h : findPort port url = some (host, port')) :
    ∃ p : Option (List Char), url = host ++ p.elim [] (fun p => ':' :: p) ∧
      port' = p.getD port ∧ ':' ∉ host ∧ ∀ q ∈ p, q ≠ [] := by
  unfold findPort at h
  split at h
  · next hptr =>
    cases h
    refine ⟨none, (List.append_nil _).symm, rfl, strchr_eq_none.1 hptr, ?_⟩
    intro q hq
    cases hq
  · next ptr hptr =>
    split at h
    · cases h
    · next hne =>
      obtain ⟨a, b, ha, rfl, rfl⟩ := exists_of_strchr hptr
      rw [drop_behind] at hne
      rw [drop_behind, List.take_left] at h
      cases h
      refine ⟨some port', rfl, rfl, ha, ?_⟩
      intro q hq
      cases hq
      exact hne

/-! ## The law -/

/-- The text between the protocol and the slashes. -/
def Url.middle (u : Url) : List Char := u.login.elim [] Login.render ++ u.address

theorem Url.address_ne (u : Url) : u.address ≠ [] := by
  rw [Url.address]
  exact List.append_ne_nil_of_left_ne_nil u.host_ne _

/-- The last component is the end of the text. -/
theorem getLast?_address {host : List Char} (hne : host ≠ []) {port : Option (List Char)}
    (hport : ∀ p ∈ port, p ≠ []) (front : List Char) :
    (front ++ (host ++ port.elim [] (fun p => ':' :: p))).getLast? = (port.getD host).getLast? := by
  cases port with
  | none =>
    rw [Option.elim_none, List.append_nil, List.getLast?_append_of_ne_nil _ hne]
    rfl
  | some p =>
    have hp : p ≠ [] := hport p rfl
    rw [Option.elim_some, ← List.append_assoc, List.getLast?_append_of_ne_nil _ (by simp)]
    show (':' :: p).getLast? = p.getLast?
    rw [← List.singleton_append, List.getLast?_append_of_ne_nil _ hp]

theorem findLogin_middle (u : Url) : findLogin u.middle =
    some (u.login.map fun l => (l.user, l.pass), u.address) := by
  cases hlogin : u.login with
  | some l =>
    rw [Url.middle, hlogin]
    exact findLogin_render l _
  | none =>
    obtain ⟨hhost, hport⟩ := u.plain hlogin
    have hat : '@' ∉ u.address := by
      rw [Url.address, List.mem_append, not_or]
      refine ⟨hhost, ?_⟩
      cases hp : u.port with
      | none => exact List.not_mem_nil
      | some p =>
        have hp' := hport p hp
        simpa using hp'
    rw [Url.middle, hlogin, Option.elim_none, List.nil_append, findLogin, strchr_eq_none.2 hat]
    rfl

/-- A rendering is taken apart into its components. -/
theorem getproxy_render (u : Url) (n : ℕ) : getproxy (u.render n) = some u.proxy := by
  have hrender : u.render n = u.proxyent.proto ++ (u.middle ++ List.replicate n '/') := by
    rw [Url.render, List.append_assoc]
    rfl
  have hlast : u.middle.getLast? ≠ some '/' := by
    rw [Url.middle, Url.address, getLast?_address u.host_ne u.port_ne]
    exact u.last
  have hne : u.middle ≠ [] := List.append_ne_nil_of_right_ne_nil _ u.address_ne
  rw [getproxy, hrender, find_proxyent u.known]
  dsimp only
  rw [List.drop_left, stripSlashes_append hlast, if_neg hne, findLogin_middle, Option.bind_some]
  dsimp only
  rw [findPort_address, Option.bind_some]
  dsimp only
  rw [if_neg u.host_ne, Url.proxy, Option.map_map, Option.map_map]
  rfl

/-- What is taken is a rendering. -/
theorem exists_of_getproxy {url : List Char} {pr : Proxy} (h : getproxy url = some pr) :
    ∃ (u : Url) (n : ℕ), u.render n = url ∧ u.proxy = pr := by
  unfold getproxy at h
  split at h
  · cases h
  · next proxyent hfind =>
    have hknown := List.mem_of_find?_eq_some hfind
    have hprefix := List.find?_some hfind
    obtain ⟨rest, rfl⟩ := List.isPrefixOf_iff_prefix.1 hprefix
    rw [List.drop_left] at h
    dsimp only at h
    split at h
    · cases h
    · next hempty =>
      rw [Option.bind_eq_some_iff] at h
      obtain ⟨⟨login, url⟩, hlogin, h⟩ := h
      rw [Option.bind_eq_some_iff] at h
      obtain ⟨⟨host, port⟩, hport, h⟩ := h
      dsimp only at h
      split at h
      · cases h
      · next hhost =>
        cases h
        obtain ⟨n, hrest, hlast⟩ := exists_slashes rest
        obtain ⟨p, rfl, rfl, hcolon, hpne⟩ := exists_of_findPort hport
        rcases exists_of_findLogin hlogin with ⟨rfl, hstrip, hat⟩ | ⟨l, rfl, hstrip⟩
        · -- without a login all of it is the address
          rw [← hstrip] at hlast hrest hat
          rw [List.mem_append, not_or] at hat
          have hpat : ∀ q ∈ p, '@' ∉ q := by
            intro q hq
            rw [hq] at hat
            simpa using hat.2
          have hend := getLast?_address hhost hpne []
          rw [List.nil_append] at hend
          rw [hend] at hlast
          refine ⟨⟨proxyent, hknown, none, host, hhost, hcolon, p, hpne, fun _ => ⟨hat.1, hpat⟩,
            hlast⟩, n, ?_, rfl⟩
          rw [hrest]
          exact List.append_assoc _ _ _
        · -- the login ends at the first at-sign, and others belong to the address
          rw [hstrip] at hlast hrest
          rw [getLast?_address hhost hpne] at hlast
          refine ⟨⟨proxyent, hknown, some l, host, hhost, hcolon, p, hpne, ?_, hlast⟩, n, ?_, rfl⟩
          · intro hnone
            cases hnone
          · rw [hrest]
            exact List.append_assoc _ _ _

/-- The URLs that are taken are the renderings of their components, and every other one is
refused. -/
theorem getproxy_iff (url : List Char) :
    (∀ pr, getproxy url = some pr ↔ ∃ (u : Url) (n : ℕ), u.render n = url ∧ u.proxy = pr) ∧
      (getproxy url = none ↔ ∀ (u : Url) (n : ℕ), u.render n ≠ url) := by
  have hiff : ∀ pr, getproxy url = some pr ↔
      ∃ (u : Url) (n : ℕ), u.render n = url ∧ u.proxy = pr := by
    intro pr
    constructor
    · exact exists_of_getproxy
    · rintro ⟨u, n, rfl, rfl⟩
      exact getproxy_render u n
  refine ⟨hiff, ?_⟩
  constructor
  · intro hnone u n hrender
    rw [← hrender, getproxy_render] at hnone
    cases hnone
  · intro hall
    cases hpr : getproxy url with
    | none => rfl
    | some pr =>
      obtain ⟨u, n, hrender, -⟩ := exists_of_getproxy hpr
      exact absurd hrender (hall u n)

/-- A host behind a login may have an `@`, and a password a `:`. -/
example : getproxy ['h', 't', 't', 'p', ':', '/', '/', 'u', ':', 'p', ':', 'q', '@', 'h', '@', 'i',
      ':', '8', '/', '/'] =
    some ⟨.http, some ['u'], some ['p', ':', 'q'], ⟨['h', '@', 'i'], ['8'], false⟩⟩ := by
  decide

end Fdm.Proxyurl

import Fdm.Lib.Scanf

/-!
# SOCKS5

`socks5proxy` of `connect.c`, over the bytes that the proxy sends until the connection fails, and
the messages of SOCKS5 with which it has to agree.

* `connectResponse_iff`: for which addresses just the reply is read;
* `speaks_iff`: for which replies of the proxy the requests are right and just the replies are read.
-/

namespace Fdm.Connect

open Lib.Scanf

/-! ## The code -/

/-- The host and the port of `struct server`. -/
structure Server where
  host : List UInt8
  port : List Char

/-- The user and the password of `struct proxy`. -/
structure Proxy where
  user : Option (List UInt8)
  pass : Option (List UInt8)

/-- The connection: what has been written, and what the proxy sends. -/
structure Io where
  sent : List UInt8 := []
  input : List UInt8
deriving DecidableEq, Repr

/-- What the function returns; the cause is that of `io_wait` or its own. -/
inductive Outcome
  | success
  | wait
  | failure (cause : String)
deriving DecidableEq, Repr

/-- A call that `fatalx` ends has no result. -/
abbrev Result := Option (Outcome × Io)

/-- A `char`, which is signed. -/
def signed (b : UInt8) : ℤ := b.toInt8.toInt

/-- `xasprintf` with `%d`. -/
def fmtInt (text : String) (b : UInt8) : String := text ++ toString (signed b)

/-- `getport`; `services` is `getservbyname`. -/
def getport (services : List Char → Option UInt16) (port : List Char) : Option ℕ :=
  match services port with
  | some n => some n.toNat
  | none => (strtonumBetween 1 65535 port).map Int.toNat

/-- `io_write`. -/
def ioWrite (io : Io) (bytes : List UInt8) : Io := { io with sent := io.sent ++ bytes }

/-- `io_wait`, and `io_read2` of the same length; `buffer_read` does not read nothing. -/
def ioWaitRead (io : Io) (len : ℕ) (k : List UInt8 → Io → Result) : Result :=
  if io.input.length < len then some (.wait, io)
  else if len = 0 then none
  else k (io.input.take len) { io with input := io.input.drop len }

/-- The causes for what the proxy replies. -/
def replyCause (rep : UInt8) : String :=
  match rep.toNat with
  | 1 => toString (signed rep) ++ ": server failure"
  | 2 => toString (signed rep) ++ ": connection not permitted"
  | 3 => toString (signed rep) ++ ": network unreachable"
  | 4 => toString (signed rep) ++ ": host unreachable"
  | 5 => toString (signed rep) ++ ": connection refused"
  | 6 => toString (signed rep) ++ ": TTL expired"
  | 7 => toString (signed rep) ++ ": command not supported"
  | 8 => toString (signed rep) ++ ": address type not supported"
  | _ => toString (signed rep) ++ ": unknown failure"

/-- `buf[4] + 2` as a `size_t`. -/
def hostLen (b : UInt8) : ℕ := ((signed b + 2) % 2 ^ 64).toNat

/-- The length of the rest of the reply, for the type in `buf[3]`. -/
def restLen (buf : List UInt8) : Option ℕ :=
  match (buf.getD 3 0).toNat with
  | 1 => some 5 -- IPv4
  | 3 => some 17 -- IPv6
  | 4 => some (hostLen (buf.getD 4 0)) -- host
  | _ => none

/-- Connect response. -/
def connectResponse (io : Io) : Result :=
  ioWaitRead io 5 fun buf io =>
    if buf.getD 0 0 ≠ 5 then some (.failure (fmtInt "bad protocol version: " (buf.getD 0 0)), io)
    else if buf.getD 1 0 ≠ 0 then some (.failure (replyCause (buf.getD 1 0)), io)
    else
      match restLen buf with
      | none => some (.failure (fmtInt "unknown address type: " (buf.getD 3 0)), io)
      | some len => ioWaitRead io len fun _ io => some (.success, io)

/-- Connect request. -/
def connectRequest (srv : Server) (port : ℕ) (io : Io) : Result :=
  if 255 < srv.host.length then some (.failure "host too long", io)
  else
    connectResponse
      (ioWrite io ([5, 1, 0, 3, UInt8.ofNat srv.host.length] ++ srv.host ++
        [UInt8.ofNat (port >>> 8 &&& 255), UInt8.ofNat (port &&& 255)]))

/-- User/pass negotiation. -/
def userPass (user pass : List UInt8) (io : Io) (k : Io → Result) : Result :=
  if 255 < user.length then some (.failure "user too long", io)
  else if 255 < pass.length then some (.failure "pass too long", io)
  else
    ioWaitRead
      (ioWrite io ([5, UInt8.ofNat user.length] ++ user ++ UInt8.ofNat pass.length :: pass)) 2
      fun buf io =>
        if buf.getD 0 0 ≠ 5 then
          some (.failure (fmtInt "bad protocol version: " (buf.getD 0 0)), io)
        else if buf.getD 1 0 ≠ 0 then some (.failure "authentication failed", io)
        else k io

/-- `socks5proxy`. -/
def socks5proxy (services : List Char → Option UInt16) (srv : Server) (pr : Proxy) (io : Io) :
    Result :=
  match getport services srv.port with
  | none => some (.failure ("bad port: " ++ String.ofList srv.port), io)
  | some port =>
    let auth := pr.user.isSome && pr.pass.isSome
    -- 0 = no auth, 2 = user/pass auth
    ioWaitRead (ioWrite io (if auth then [5, 2, 0, 2] else [5, 1, 0])) 2 fun buf io =>
      if buf.getD 0 0 ≠ 5 then
        some (.failure (fmtInt "bad protocol version: " (buf.getD 0 0)), io)
      else if (buf.getD 1 0 ≠ 0 ∧ buf.getD 1 0 ≠ 2) ∨ (auth = false ∧ buf.getD 1 0 = 2) then
        some (.failure (fmtInt "unexpected method: " (buf.getD 1 0)), io)
      else if buf.getD 1 0 = 2 then
        userPass (pr.user.getD []) (pr.pass.getD []) io (connectRequest srv port)
      else connectRequest srv port io

/-! ## The protocol -/

/-- The methods that are used. -/
inductive Method
  | noAuth
  | userPass
deriving DecidableEq, Repr

/-- The bound address in a reply. -/
inductive Address
  | ipv4 (bytes : List UInt8) (h : bytes.length = 4)
  | domain (name : List UInt8) (h : 1 ≤ name.length ∧ name.length ≤ 255)
  | ipv6 (bytes : List UInt8) (h : bytes.length = 16)

/-- The replies of a proxy that makes the connection: the method, a good status if a password is
asked for, and the bound address and port. -/
structure Replies where
  method : Method
  address : Address
  portHigh : UInt8
  portLow : UInt8

/-- The address with its type in front. -/
def Address.encode : Address → List UInt8
  | .ipv4 bytes _ => 1 :: bytes
  | .domain name _ => 3 :: UInt8.ofNat name.length :: name
  | .ipv6 bytes _ => 4 :: bytes

def Replies.encode (r : Replies) : List UInt8 :=
  (match r.method with
    | .noAuth => ([5, 0] : List UInt8)
    | .userPass => [5, 2, 1, 0]) ++
  ([5, 0, 0] ++ r.address.encode ++ [r.portHigh, r.portLow])

/-- A string with its length in front, where a byte can say the length. -/
def counted (s : List UInt8) : Option (List UInt8) :=
  if s.length ≤ 255 then some (UInt8.ofNat s.length :: s) else none

/-- The greeting, with the methods that are offered. -/
def greeting (pr : Proxy) : List UInt8 :=
  if pr.user.isSome && pr.pass.isSome then [5, 2, 0, 2] else [5, 1, 0]

/-- The request for the user and the password. -/
def credentials (pr : Proxy) : Option (List UInt8) :=
  (counted (pr.user.getD [])).bind fun user =>
    (counted (pr.pass.getD [])).map fun pass => 1 :: (user ++ pass)

/-- The request to connect to a domain name. -/
def connect (srv : Server) (port : ℕ) : Option (List UInt8) :=
  (counted srv.host).map fun host =>
    [5, 1, 0, 3] ++ host ++ [UInt8.ofNat (port / 256), UInt8.ofNat (port % 256)]

/-- All requests, for the method that the proxy has chosen. -/
def requests (services : List Char → Option UInt16) (srv : Server) (pr : Proxy) (method : Method) :
    Option (List UInt8) :=
  (getport services srv.port).bind fun port =>
    match method with
    | .noAuth => (connect srv port).map fun c => greeting pr ++ c
    | .userPass =>
      (credentials pr).bind fun a => (connect srv port).map fun c => greeting pr ++ a ++ c

/-- The requests are those of the protocol, and just the replies are read; where there is no request
for what is too long, the call fails. -/
def Speaks (services : List Char → Option UInt16) (srv : Server) (pr : Proxy) (r : Replies)
    (tunnel : List UInt8) : Prop :=
  match requests services srv pr r.method with
  | some sent =>
    socks5proxy services srv pr { input := r.encode ++ tunnel } =
      some (.success, { sent := sent, input := tunnel })
  | none =>
    ∃ cause io, socks5proxy services srv pr { input := r.encode ++ tunnel } =
      some (.failure cause, io)

/-- The rest of the reply is as long as the code takes it to be. -/
def Address.Fits : Address → Prop
  | .ipv4 _ _ => True
  | .domain name _ => name.length = 15
  | .ipv6 bytes _ => bytes.head? = some 15

/-! ## Reading the replies -/

variable {services : List Char → Option UInt16} {srv : Server} {pr : Proxy} {r : Replies}
  {sent tunnel : List UInt8}

/-- The bytes that are waited for are there. -/
theorem ioWaitRead_append (bytes : List UInt8) (n : ℕ) (hn : bytes.length = n) (hpos : n ≠ 0)
    (rest : List UInt8) (k : List UInt8 → Io → Result) :
    ioWaitRead { sent := sent, input := bytes ++ rest } n k =
      k bytes { sent := sent, input := rest } := by
  subst hn
  have hfit : ¬ (bytes ++ rest).length < bytes.length := by
    rw [List.length_append]
    omega
  simp only [ioWaitRead, if_neg hfit, if_neg hpos, List.take_left, List.drop_left]

/-- What is read last is the rest of the reply just when it is as long. -/
theorem ioWaitRead_rest (body tunnel : List UInt8) (n : ℕ) :
    ioWaitRead { sent := sent, input := body ++ tunnel } n (fun _ io => some (.success, io)) =
        some (.success, { sent := sent, input := tunnel }) ↔ n ≠ 0 ∧ n = body.length := by
  rw [ioWaitRead]
  by_cases hshort : (body ++ tunnel).length < n
  · rw [if_pos hshort]
    rw [List.length_append] at hshort
    simp only [Option.some.injEq, Prod.mk.injEq, reduceCtorEq, false_and, false_iff, not_and]
    omega
  · rw [if_neg hshort]
    rw [List.length_append] at hshort
    by_cases hzero : n = 0
    · simp [hzero]
    · rw [if_neg hzero]
      simp only [Option.some.injEq, Prod.mk.injEq, Io.mk.injEq, true_and]
      constructor
      · intro h
        have hlength := congrArg List.length h
        rw [List.length_drop, List.length_append] at hlength
        exact ⟨hzero, by omega⟩
      · rintro ⟨-, rfl⟩
        exact List.drop_left

/-- The first byte of an IPv6 address is taken for the length of a name. -/
theorem hostLen_eq_iff (b : UInt8) : hostLen b = 17 ↔ b = 15 := by
  have hlow := b.toInt8.le_toInt
  have hhigh := b.toInt8.toInt_lt
  have hvalue : hostLen b = 17 ↔ signed b = 15 := by
    rw [hostLen, signed]
    omega
  rw [hvalue]
  constructor
  · intro h
    have hfifteen : b.toInt8 = (15 : UInt8).toInt8 := Int8.toInt_inj.mp h
    exact congrArg Int8.toUInt8 hfifteen
  · rintro rfl
    rfl

/-- The reply to the connect request is read as it should be just when its address fits. -/
theorem connectResponse_iff (address : Address) (high low : UInt8) :
    connectResponse
        { sent := sent, input := [5, 0, 0] ++ address.encode ++ [high, low] ++ tunnel } =
      some (.success, { sent := sent, input := tunnel }) ↔ address.Fits := by
  have hread : ∀ (type first : UInt8) (rest : List UInt8),
      connectResponse { sent := sent, input := [5, 0, 0, type, first] ++ rest } =
        match restLen [5, 0, 0, type, first] with
        | none => some (.failure (fmtInt "unknown address type: " type),
            { sent := sent, input := rest })
        | some len => ioWaitRead { sent := sent, input := rest } len
            fun _ io => some (.success, io) := by
    intro type first rest
    rw [connectResponse, ioWaitRead_append [5, 0, 0, type, first] 5 rfl (by decide)]
    rfl
  cases address with
  | ipv4 bytes h =>
    obtain ⟨a, bytes, rfl⟩ := List.exists_cons_of_length_eq_add_one h
    have hinput : [5, 0, 0] ++ (Address.ipv4 (a :: bytes) h).encode ++ [high, low] ++ tunnel =
        [5, 0, 0, 1, a] ++ ((bytes ++ [high, low]) ++ tunnel) := by
      simp [Address.encode]
    have hlen : restLen [5, 0, 0, 1, a] = some 5 := rfl
    rw [hinput, hread, hlen]
    simp only [ioWaitRead_rest, Address.Fits, iff_true]
    rw [List.length_append]
    rw [List.length_cons] at h
    exact ⟨by decide, by simp; omega⟩
  | domain name h =>
    have hinput : [5, 0, 0] ++ (Address.domain name h).encode ++ [high, low] ++ tunnel =
        [5, 0, 0, 3, UInt8.ofNat name.length] ++ ((name ++ [high, low]) ++ tunnel) := by
      simp [Address.encode]
    have hlen : restLen [5, 0, 0, 3, UInt8.ofNat name.length] = some 17 := rfl
    rw [hinput, hread, hlen]
    simp only [ioWaitRead_rest, Address.Fits, List.length_append, List.length_cons,
      List.length_nil]
    omega
  | ipv6 bytes h =>
    obtain ⟨a, bytes, rfl⟩ := List.exists_cons_of_length_eq_add_one h
    have hinput : [5, 0, 0] ++ (Address.ipv6 (a :: bytes) h).encode ++ [high, low] ++ tunnel =
        [5, 0, 0, 4, a] ++ ((bytes ++ [high, low]) ++ tunnel) := by
      simp [Address.encode]
    have hlen : restLen [5, 0, 0, 4, a] = some (hostLen a) := rfl
    have hbody : (bytes ++ [high, low]).length = 17 := by
      rw [List.length_cons] at h
      simp
      omega
    rw [hinput, hread, hlen]
    simp only [ioWaitRead_rest, hbody, Address.Fits, List.head?_cons, Option.some.injEq]
    rw [← hostLen_eq_iff]
    omega

/-! ## Writing the requests -/

theorem counted_of_le {s : List UInt8} (h : s.length ≤ 255) :
    counted s = some (UInt8.ofNat s.length :: s) := if_pos h

theorem counted_of_lt {s : List UInt8} (h : 255 < s.length) : counted s = none :=
  if_neg (by omega)

/-- The port is written with its high byte first. -/
theorem port_bytes (port : ℕ) :
    UInt8.ofNat (port >>> 8 &&& 255) = UInt8.ofNat (port / 256) ∧
      UInt8.ofNat (port &&& 255) = UInt8.ofNat (port % 256) := by
  have hand : ∀ n : ℕ, n &&& 255 = n % 256 := fun n => Nat.and_two_pow_sub_one_eq_mod n 8
  have hshift : port >>> 8 = port / 256 := Nat.shiftRight_eq_div_pow port 8
  rw [hand, hand, hshift]
  refine ⟨?_, rfl⟩
  rw [← UInt8.toNat_inj, UInt8.toNat_ofNat', UInt8.toNat_ofNat', Nat.mod_mod]

/-- A host that is not too long is sent as the protocol says. -/
theorem connectRequest_of_le (h : srv.host.length ≤ 255) (port : ℕ) (io : Io) :
    ∃ c, connect srv port = some c ∧
      connectRequest srv port io = connectResponse (ioWrite io c) := by
  refine ⟨_, by rw [connect, counted_of_le h]; rfl, ?_⟩
  rw [connectRequest, if_neg (by omega), (port_bytes port).1, (port_bytes port).2]
  simp

theorem connectRequest_of_lt (h : 255 < srv.host.length) (port : ℕ) (io : Io) :
    connect srv port = none ∧
      connectRequest srv port io = some (.failure "host too long", io) := by
  refine ⟨?_, if_pos h⟩
  rw [connect, counted_of_lt h]
  rfl

/-- What is too long is rejected; if nothing is, the proxy has another version of the
negotiation. -/
theorem userPass_fails (user pass : List UInt8) (io : Io) (k : Io → Result) (rest : List UInt8)
    (hinput : io.input = [1, 0] ++ rest) :
    ∃ cause io', userPass user pass io k = some (.failure cause, io') := by
  rw [userPass]
  split_ifs
  · exact ⟨_, _, rfl⟩
  · exact ⟨_, _, rfl⟩
  · rw [ioWrite, hinput, ioWaitRead_append [1, 0] 2 rfl (by decide)]
    exact ⟨_, _, rfl⟩

/-- The proxy chooses one of the methods that were offered to it. -/
theorem socks5proxy_method {port : ℕ} (hport : getport services srv.port = some port)
    {method : UInt8}
    (hmethod : method = 0 ∨ method = 2 ∧ (pr.user.isSome && pr.pass.isSome) = true)
    (rest : List UInt8) :
    socks5proxy services srv pr { input := [5, method] ++ rest } =
      if method = 2 then
        userPass (pr.user.getD []) (pr.pass.getD []) { sent := greeting pr, input := rest }
          (connectRequest srv port)
      else connectRequest srv port { sent := greeting pr, input := rest } := by
  have hgreeting : ioWrite { input := [5, method] ++ rest }
      (if (pr.user.isSome && pr.pass.isSome) = true then [5, 2, 0, 2] else [5, 1, 0]) =
        { sent := greeting pr, input := [5, method] ++ rest } := rfl
  have hversion : ([5, method] : List UInt8).getD 0 0 = 5 := rfl
  have hchosen : ([5, method] : List UInt8).getD 1 0 = method := rfl
  have hoffered : ¬ (method ≠ 0 ∧ method ≠ 2 ∨
      (pr.user.isSome && pr.pass.isSome) = false ∧ method = 2) := by
    rcases hmethod with rfl | ⟨rfl, hauth⟩
    · simp
    · simp [hauth]
  rw [socks5proxy, hport]
  simp only [hgreeting]
  rw [ioWaitRead_append [5, method] 2 rfl (by decide), hversion, hchosen, if_neg (by decide),
    if_neg hoffered]

/-- Without a password the greeting is followed by the connect request. -/
theorem socks5proxy_noAuth {port : ℕ} (hport : getport services srv.port = some port)
    (rest : List UInt8) :
    socks5proxy services srv pr { input := [5, 0] ++ rest } =
      connectRequest srv port { sent := greeting pr, input := rest } := by
  rw [socks5proxy_method hport (Or.inl rfl), if_neg (by decide)]

/-- With a password there is a negotiation in front of it. -/
theorem socks5proxy_userPass {port : ℕ} (hport : getport services srv.port = some port)
    (hauth : (pr.user.isSome && pr.pass.isSome) = true) (rest : List UInt8) :
    socks5proxy services srv pr { input := [5, 2] ++ rest } =
      userPass (pr.user.getD []) (pr.pass.getD []) { sent := greeting pr, input := rest }
        (connectRequest srv port) := by
  rw [socks5proxy_method hport (Or.inr ⟨rfl, hauth⟩), if_pos rfl]

/-- The replies are read and the requests written as the protocol says just when there is something
that has to be rejected, or no password is asked for and the address in the reply fits. -/
theorem speaks_iff (hoffer : r.method = .userPass → (pr.user.isSome && pr.pass.isSome) = true)
    (tunnel : List UInt8) :
    Speaks services srv pr r tunnel ↔
      requests services srv pr r.method = none ∨ r.method = .noAuth ∧ r.address.Fits := by
  obtain ⟨method, address, high, low⟩ := r
  rw [Speaks]
  cases hport : getport services srv.port with
  | none =>
    have hnone : requests services srv pr method = none := by
      rw [requests, hport]
      rfl
    simp only [hnone, true_or, iff_true]
    exact ⟨_, _, by rw [socks5proxy, hport]⟩
  | some port =>
    cases method with
    | noAuth =>
      have hinput : Replies.encode ⟨.noAuth, address, high, low⟩ ++ tunnel =
          [5, 0] ++ ([5, 0, 0] ++ address.encode ++ [high, low] ++ tunnel) := by
        simp [Replies.encode]
      have hrequests : requests services srv pr .noAuth =
          (connect srv port).map fun c => greeting pr ++ c := by
        rw [requests, hport]
        rfl
      rw [hinput, socks5proxy_noAuth hport]
      by_cases hhost : srv.host.length ≤ 255
      · obtain ⟨c, hconnect, hrun⟩ := connectRequest_of_le hhost port
          { sent := greeting pr, input := [5, 0, 0] ++ address.encode ++ [high, low] ++ tunnel }
        rw [hconnect, Option.map_some] at hrequests
        simp only [hrequests, hrun, ioWrite, connectResponse_iff]
        simp
      · obtain ⟨hconnect, hrun⟩ := connectRequest_of_lt (Nat.lt_of_not_le hhost) port
          { sent := greeting pr, input := [5, 0, 0] ++ address.encode ++ [high, low] ++ tunnel }
        rw [hconnect, Option.map_none] at hrequests
        simp only [hrequests, hrun]
        simp
    | userPass =>
      have hinput : Replies.encode ⟨.userPass, address, high, low⟩ ++ tunnel =
          [5, 2] ++ ([1, 0] ++ ([5, 0, 0] ++ address.encode ++ [high, low] ++ tunnel)) := by
        simp [Replies.encode]
      obtain ⟨cause, io, hfails⟩ := userPass_fails (pr.user.getD []) (pr.pass.getD [])
        { sent := greeting pr
          input := [1, 0] ++ ([5, 0, 0] ++ address.encode ++ [high, low] ++ tunnel) }
        (connectRequest srv port) _ rfl
      rw [hinput, socks5proxy_userPass hport (hoffer rfl)]
      simp only [hfails]
      cases hrequests : requests services srv pr .userPass with
      | none => simp
      | some sent => simp

/-- A mail server, and a proxy without and with a password. -/
def mailServer : Server := { host := [104], port := ['2', '5'] }

def free : Proxy := { user := none, pass := none }

def guarded : Proxy := { user := some [117], pass := some [112] }

/-- Replies with an IPv4 address, a domain name, an IPv6 address, and with a password. -/
def local4 : Replies := ⟨.noAuth, .ipv4 [127, 0, 0, 1] rfl, 0, 25⟩

def named : Replies := ⟨.noAuth, .domain [97] (by decide), 0, 25⟩

def local6 : Replies :=
  ⟨.noAuth, .ipv6 [32, 1, 13, 184, 0, 0, 0, 0, 0, 0, 0, 0, 0, 0, 0, 1] rfl, 0, 25⟩

def asking : Replies := ⟨.userPass, .ipv4 [127, 0, 0, 1] rfl, 0, 25⟩

theorem speaks_iff_local4 :
    Speaks (fun _ => none) mailServer free local4 [50] ↔
      requests (fun _ => none) mailServer free local4.method = none ∨
        local4.method = .noAuth ∧ local4.address.Fits :=
  speaks_iff (fun h => absurd h (by decide)) [50]

/-- With a domain name, 14 bytes of the stream are read behind the reply; with an IPv6 address, 17
bytes of the stream would be; and a reply to the password is no version 5. -/
theorem misread :
    ¬ Speaks (fun _ => none) mailServer free named (List.replicate 14 50 ++ [49]) ∧
      ¬ Speaks (fun _ => none) mailServer free local6 [50] ∧
      ¬ Speaks (fun _ => none) mailServer guarded asking [50] := by
  have hnamed : socks5proxy (fun _ => none) mailServer free
      { input := named.encode ++ (List.replicate 14 50 ++ [49]) } =
        some (.success, { sent := [5, 1, 0, 5, 1, 0, 3, 1, 104, 0, 25], input := [49] }) := by
    decide +kernel
  have hlocal6 : socks5proxy (fun _ => none) mailServer free { input := local6.encode ++ [50] } =
      some (.wait, { sent := [5, 1, 0, 5, 1, 0, 3, 1, 104, 0, 25]
                     input := [1, 13, 184, 0, 0, 0, 0, 0, 0, 0, 0, 0, 0, 0, 1, 0, 25, 50] }) := by
    decide +kernel
  have hasking : socks5proxy (fun _ => none) mailServer guarded
      { input := asking.encode ++ [50] } =
        some (.failure "bad protocol version: 1",
          { sent := [5, 2, 0, 2, 5, 1, 117, 1, 112]
            input := [5, 0, 0, 1, 127, 0, 0, 1, 0, 25, 50] }) := by
    decide +kernel
  have hrequests : requests (fun _ => none) mailServer free .noAuth =
      some [5, 1, 0, 5, 1, 0, 3, 1, 104, 0, 25] := by
    decide +kernel
  have hpassword : requests (fun _ => none) mailServer guarded .userPass =
      some [5, 2, 0, 2, 1, 1, 117, 1, 112, 5, 1, 0, 3, 1, 104, 0, 25] := by
    decide +kernel
  refine ⟨?_, ?_, ?_⟩
  · rw [Speaks, show named.method = .noAuth from rfl, hrequests, hnamed]
    decide
  · rw [Speaks, show local6.method = .noAuth from rfl, hrequests, hlocal6]
    decide
  · rw [Speaks, show asking.method = .userPass from rfl, hpassword, hasking]
    decide

end Fdm.Connect

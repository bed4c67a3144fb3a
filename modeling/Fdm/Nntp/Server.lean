import Fdm.Nntp.Defs

/-!
# A server to fetch from

A news server as RFC 3977 describes it, and the sessions of the fetcher with it: `GROUP`
selects the first article of a group, `STAT n` selects article `n`, and `NEXT` moves on to
the following one. What the server holds does not change during a session. Its lines arrive
in their order, any number of them between two calls of the fetch function.

* `Newsgroup.walk`: the articles that a session fetches of a group;
* `checkElse_reply`, `parse223_post`, `sscanf_watermarks`: how the replies are read.
-/

namespace Fdm.Nntp

open Fdm.Fetch Lib.Scanf
open Lib.Strchr (all_ne takeWhile_ne)

/-! ## What there is -/

/-- An article: its number, its id, and its lines as they are sent. -/
structure Post where
  n : ℕ
  id : List Char
  text : List (List Char)
deriving DecidableEq, Repr

/-- A group, with the numbers that are reported for it. -/
structure Newsgroup where
  posts : List Post
  count : ℕ
  low : ℕ
  high : ℕ
  ascending : posts.Pairwise fun p q => p.n < q.n
  numbered : ∀ p ∈ posts, 0 < p.n ∧ p.n ≤ high
  ids : ∀ p ∈ posts, '>' ∉ p.id
  texts : ∀ p ∈ posts, ['.'] ∉ p.text
  numbers : count < 2 ^ 32 ∧ low < 2 ^ 32 ∧ high < 2 ^ 32

/-- The groups of a server, and what it says behind its codes. -/
structure Site where
  newsgroup : List Char → Newsgroup
  note : List Char

/-- The articles of the group that is selected, and of these the current one and those
behind it; there is no current article when there are none. -/
structure Serving where
  selected : List Post := []
  left : List Post := []

/-! ## Replies -/

/-- A code and a text. -/
def reply (code : ℕ) (text : List Char) : List Char := decimal code ++ ' ' :: text

namespace Site

variable (site : Site)

/-- The reply that names an article. -/
def post (p : Post) : List Char :=
  reply 223 (decimal p.n ++ ' ' :: '<' :: (p.id ++ '>' :: site.note))

/-- The reply to `GROUP`. -/
def watermarks (g : Newsgroup) : List Char :=
  reply 211 (decimal g.count ++ ' ' :: (decimal g.low ++ ' ' :: (decimal g.high ++
    ' ' :: site.note)))

/-- The lines that follow a command. -/
def answer (sv : Serving) : Cmd → List (List Char) × Serving
  | .user _ => ([reply 381 site.note], sv)
  | .pass _ => ([reply 281 site.note], sv)
  | .group name =>
    ([site.watermarks (site.newsgroup name)],
      ⟨(site.newsgroup name).posts, (site.newsgroup name).posts⟩)
  | .stat n =>
    match sv.selected.dropWhile fun p => p.n ≠ n with
    | [] => ([reply 423 site.note], sv)
    | p :: ps => ([site.post p], { sv with left := p :: ps })
  | .next =>
    match sv.left with
    | [] => ([reply 420 site.note], sv)
    | [_] => ([reply 421 site.note], sv)
    | _ :: p :: ps => ([site.post p], { sv with left := p :: ps })
  | .article =>
    match sv.left with
    | [] => ([reply 420 site.note], sv)
    | p :: _ => (reply 220 site.note :: p.text ++ [['.']], sv)
  | .quit => ([reply 205 site.note], sv)

/-- The lines that follow the commands of a call. -/
def answers : Serving → List Cmd → List (List Char) × Serving
  | sv, [] => ([], sv)
  | sv, cmd :: cmds =>
    let (ls, sv) := site.answer sv cmd
    let (ls', sv) := answers sv cmds
    (ls ++ ls', sv)

end Site

/-! ## Sessions -/

/-- The fetcher and the server it is connected to, the lines that are under way, and the
articles that were handed out as mails. -/
structure Session where
  fctx : Ctx
  e : Env
  serving : Serving := {}
  out : List (List Char) := []
  fetched : List Article := []
  ended : Option FetchCode := none

/-- A line, as it is read. -/
def received (l : List Char) : Received := .line l []

namespace Session

/-- Some lines arrive. -/
def arrive (n : ℕ) (s : Session) : Session :=
  { s with
    e := { s.e with inbuf := s.e.inbuf ++ (s.out.take n).map received }
    out := s.out.drop n }

/-- The fetch function is called, and the server reads what it has sent. -/
def call (conf : Conf) (site : Site) (s : Session) : Session :=
  let (code, fctx, e) := state conf s.fctx s.e
  let (ls, serving) := site.answers s.serving (e.hist.sent.drop s.e.hist.sent.length)
  let s := { s with e := e, serving := serving, out := s.out ++ ls }
  match code with
  | .again => { s with fctx := fctx }
  | .block => { s with fctx := fctx }
  | .mail =>
    { s with
      fctx := { fctx with mail := {} }
      fetched := s.fetched ++ (fctx.mail.auxdata.bind fun k => e.hist.seen[k]?).toList }
  | code => { s with fctx := fctx, ended := some code }

/-- Some lines arrive, and the fetch function is called. -/
def turn (conf : Conf) (site : Site) (s : Session) (n : ℕ) : Option Session :=
  if s.ended.isSome then none else some ((s.arrive n).call conf site)

/-- The session after the connection has been made. -/
def connect (site : Site) (e : Env) : Option Session :=
  match stateConnect { state := .connect } e with
  | (.block, fctx, e) => some { fctx := fctx, e := e, out := [reply 200 site.note] }
  | _ => none

end Session

/-! ## What is fetched -/

/-- The articles that are fetched of a group: those behind the last one when it is the one
that was fetched; otherwise those behind the first one. -/
def Newsgroup.walk (g : Newsgroup) (last : ℕ) (id : Option (List Char)) : List Post :=
  if g.high < last ∨ last = 0 then g.posts.tail
  else
    match g.posts.dropWhile fun p => p.n ≠ last with
    | [] => g.posts.tail
    | p :: ps => if id = some p.id then ps else g.posts.tail

theorem Newsgroup.walk_zero (g : Newsgroup) (id : Option (List Char)) :
    g.walk 0 id = g.posts.tail := by
  rw [Newsgroup.walk, if_pos (Or.inr rfl)]

/-- What is walked are the last posts of the group. -/
theorem Newsgroup.walk_suffix (g : Newsgroup) (last : ℕ) (id : Option (List Char)) :
    g.walk last id <:+ g.posts := by
  have htail : g.posts.tail <:+ g.posts := List.tail_suffix _
  unfold Newsgroup.walk
  split_ifs with hreset
  · exact htail
  · have hdrop := List.dropWhile_suffix (l := g.posts) fun p => decide (p.n ≠ last)
    split
    · exact htail
    · next p ps hps =>
      rw [hps] at hdrop
      split_ifs
      · exact (List.suffix_cons p ps).trans hdrop
      · exact htail

/-! ## Reading the replies -/

/-- A number ends at a blank. -/
theorem head_blank {s : List Char} : ∀ c ∈ (' ' :: s).head?, c.isDigit = false := by
  intro c hc
  obtain rfl : ' ' = c := by simpa using hc
  rfl

/-- The code of a reply is read back. -/
theorem fetchNntpCode_reply {code : ℕ} (hlow : 100 ≤ code) (hhigh : code ≤ 999)
    (text : List Char) : fetchNntpCode (reply code text) = some code := by
  have htake : (reply code text).takeWhile Char.isDigit = decimal code := by
    rw [reply, List.takeWhile_append_of_pos fun c hc => isDigit_of_mem_decimal hc,
      List.takeWhile_cons_of_neg (by decide), List.append_nil]
  rw [fetchNntpCode, htake, strtonum_decimal hhigh]
  exact if_neg (by omega)

section
variable {bad : FetchCode} {codes : List ℕ} {fctx : Ctx} {e : Env}
  {k : List Char → ℕ → Env → Result}

/-- There is no reply yet. -/
theorem checkElse_nil (h : e.inbuf = []) : checkElse bad codes fctx e k = (.block, fctx, e) := by
  obtain ⟨data, inbuf, fault, disk, hist⟩ := e
  obtain rfl : inbuf = [] := h
  rfl

/-- A reply with one of the codes that are looked for goes through. -/
theorem checkElse_reply {code : ℕ} {text : List Char} {rest : List Received} (hlow : 200 ≤ code)
    (hhigh : code ≤ 999) (hmem : code ∈ codes) (h : e.inbuf = received (reply code text) :: rest) :
    checkElse bad codes fctx e k = k (reply code text) code { e with inbuf := rest } := by
  have hnext : nextReply e.inbuf = .code (reply code text) code rest := by
    rw [h, received, nextReply, fetchNntpCode_reply (by omega) hhigh]
    exact if_neg (by omega)
  rw [checkElse, hnext]
  exact if_pos hmem

end

theorem decimal_211 : decimal 211 = ['2', '1', '1'] := by decide

theorem decimal_223 : decimal 223 = ['2', '2', '3'] := by decide

/-- A number behind a blank. -/
theorem scanNum_blank {n : ℕ} (hn : n < 2 ^ 32) (s : List Char) :
    scanNum 32 (decimal n ++ ' ' :: s) = some (n, ' ' :: s) :=
  scanNum_decimal_bits (by decide) hn head_blank

/-- The number of posts and the last one are read back from the answer to GROUP. -/
theorem sscanf_watermarks (site : Site) (g : Newsgroup) :
    sscanf line211 (site.watermarks g) = [g.count, g.high] := by
  obtain ⟨hcount, hlow, hhigh⟩ := g.numbers
  rw [sscanf, line211, Site.watermarks, reply, decimal_211]
  simp [lits, u32, scan, dropWhile_blank_decimal, scanNum_blank, hcount, hlow, hhigh, -Nat.reducePow]

/-- The number and the id of a post are read back from the answer to STAT or NEXT. -/
theorem parse223_post (site : Site) {p : Post} (hn : p.n < 2 ^ 32) (hid : '>' ∉ p.id) :
    parse223 (site.post p) = some (p.n, p.id) := by
  have hscan : sscanf line223 (site.post p) = [p.n] := by
    rw [sscanf, line223, Site.post, reply, decimal_223]
    simp [lits, u32, scan, dropWhile_blank_decimal, scanNum_blank, hn, -Nat.reducePow]
  have hbracket : (site.post p).dropWhile (· ≠ '<') = '<' :: (p.id ++ '>' :: site.note) := by
    have hfront := all_ne (not_mem_decimal (c := '<') (by decide) p.n)
    rw [Site.post, reply, decimal_223]
    simp only [List.cons_append, List.nil_append]
    rw [List.dropWhile_cons_of_pos (by decide), List.dropWhile_cons_of_pos (by decide),
      List.dropWhile_cons_of_pos (by decide), List.dropWhile_cons_of_pos (by decide),
      List.dropWhile_append_of_pos hfront, List.dropWhile_cons_of_pos (by decide),
      List.dropWhile_cons_of_neg (by decide)]
  have hclose : (p.id ++ '>' :: site.note).takeWhile (· ≠ '>') = p.id := by
    exact takeWhile_ne hid site.note
  rw [parse223, hscan, hbracket]
  dsimp only
  rw [if_pos (by simp), hclose]

end Fdm.Nntp

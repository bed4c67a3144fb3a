import Fdm.Nntp.Walk

/-!
# The articles of a run

The articles that should be fetched of a group are those behind the last one, or all of
them when there is no last one or the group is reset. `GROUP` selects the first article of a
group already, and the fetcher sends `NEXT` in front of every article: the first one is
passed over unless the walk begins at the last article that was fetched.

* `walk_eq_wanted_iff`: when the walk through a group finds what it should;
* `fetched_iff`: the articles of a run are the right ones for these groups, and no others.
-/

namespace Fdm.Nntp

open Fdm.Fetch Lib.Runs

/-- The articles that should be fetched of a group. -/
def Newsgroup.wanted (g : Newsgroup) (last : ℕ) (id : Option (List Char)) : List Post :=
  if g.high < last ∨ ∃ p ∈ g.posts, p.n = last ∧ id ≠ some p.id then g.posts
  else g.posts.filter fun p => last < p.n

/-- The group is empty, or its last article is there with its id, or it is gone and of those
that are left only the first is in front of it. -/
def Newsgroup.Covered (g : Newsgroup) (last : ℕ) (id : Option (List Char)) : Prop :=
  g.posts = [] ∨ last ≠ 0 ∧ last ≤ g.high ∧
    ((∃ p ∈ g.posts, p.n = last ∧ id = some p.id) ∨
      (∀ p ∈ g.posts, p.n ≠ last) ∧ (∀ p ∈ g.posts.head?, p.n < last) ∧
        ∀ p ∈ g.posts.tail, last < p.n)

/-- What was fetched of a group. -/
def Session.fetchedOf (k : ℕ) (s : Session) : List (ℕ × List Char) :=
  (s.fetched.filter fun a => a.group = k).map fun a => (a.n, a.id)

/-- The number and the id of an article. -/
def Post.key (p : Post) : ℕ × List Char := (p.n, p.id)

/-! ## One group -/

theorem tail_eq_self_iff {α : Type} {l : List α} : l.tail = l ↔ l = [] := by
  cases l with
  | nil => simp
  | cons a l => simp

/-- No two articles of a group have the same number. -/
theorem Newsgroup.n_injective (g : Newsgroup) {p q : Post} (hp : p ∈ g.posts) (hq : q ∈ g.posts)
    (h : p.n = q.n) : p = q := by
  have hnodup : (g.posts.map Post.n).Nodup :=
    List.pairwise_map.mpr (g.ascending.imp fun hlt => Nat.ne_of_lt hlt)
  exact List.inj_on_of_nodup_map hnodup hp hq h

/-- So articles of a group are known by their numbers and ids. -/
theorem Newsgroup.eq_of_map_key (g : Newsgroup) {ps qs : List Post} (hps : ps ⊆ g.posts)
    (hqs : qs ⊆ g.posts) (h : ps.map Post.key = qs.map Post.key) : ps = qs := by
  induction ps generalizing qs with
  | nil => exact (List.map_eq_nil_iff.mp h.symm).symm
  | cons p ps ih =>
    cases qs with
    | nil => cases h
    | cons q qs =>
      obtain ⟨hkey, htail⟩ := List.cons.inj h
      obtain ⟨hp, hps⟩ := List.cons_subset.mp hps
      obtain ⟨hq, hqs⟩ := List.cons_subset.mp hqs
      rw [g.n_injective hp hq (congrArg Prod.fst hkey), ih hps hqs htail]

/-- Of articles in ascending order that do not include the last one, all but the first are
behind it when the first is not, and no other is in front of it. -/
theorem tail_eq_filter_iff {ps : List Post} {last : ℕ} (h : ps.Pairwise fun p q => p.n < q.n)
    (hgone : ∀ p ∈ ps, p.n ≠ last) :
    (ps.tail = ps.filter fun p => last < p.n) ↔
      ps = [] ∨ (∀ p ∈ ps.head?, p.n < last) ∧ ∀ p ∈ ps.tail, last < p.n := by
  cases ps with
  | nil => simp
  | cons p ps =>
    have hne := hgone p List.mem_cons_self
    rw [List.pairwise_cons] at h
    rw [List.tail_cons, List.head?_cons]
    by_cases hp : last < p.n
    · -- all of them are behind the last one
      have hall : (p :: ps).filter (fun p => last < p.n) = p :: ps := by
        rw [List.filter_eq_self]
        intro q hq
        rw [decide_eq_true_eq]
        rcases List.mem_cons.mp hq with rfl | hq
        · exact hp
        · exact Nat.lt_trans hp (h.1 q hq)
      rw [hall]
      constructor
      · intro heq
        exact absurd heq.symm (List.cons_ne_self p ps)
      · rintro (hnil | ⟨hhead, -⟩)
        · cases hnil
        · have hlt := hhead p rfl
          omega
    · rw [List.filter_cons_of_neg (by simpa using hp), eq_comm, List.filter_eq_self]
      simp only [decide_eq_true_eq]
      constructor
      · intro hall
        refine Or.inr ⟨fun q hq => ?_, hall⟩
        obtain rfl := Option.some.inj hq
        omega
      · rintro (hnil | ⟨-, hall⟩)
        · cases hnil
        · exact hall

/-- The walk through a group finds what it should exactly for a group that is covered. -/
theorem walk_eq_wanted_iff (g : Newsgroup) (last : ℕ) (id : Option (List Char)) :
    g.walk last id = g.wanted last id ↔ g.Covered last id := by
  by_cases hhigh : g.high < last
  · rw [Newsgroup.walk, if_pos (Or.inl hhigh), Newsgroup.wanted, if_pos (Or.inl hhigh),
      tail_eq_self_iff, Newsgroup.Covered]
    refine ⟨Or.inl, fun h => h.resolve_right ?_⟩
    rintro ⟨-, hle, -⟩
    omega
  · by_cases hlast : last = 0
    · have hnone : ¬ (g.high < last ∨ ∃ p ∈ g.posts, p.n = last ∧ id ≠ some p.id) := by
        rintro (h | ⟨p, hp, hn, -⟩)
        · exact hhigh h
        · have hpos := (g.numbered p hp).1
          omega
      have hall : g.posts.filter (fun p => last < p.n) = g.posts := by
        rw [List.filter_eq_self]
        intro p hp
        rw [decide_eq_true_eq, hlast]
        exact (g.numbered p hp).1
      rw [Newsgroup.walk, if_pos (Or.inr hlast), Newsgroup.wanted, if_neg hnone, hall,
        tail_eq_self_iff, Newsgroup.Covered]
      exact ⟨Or.inl, fun h => h.resolve_right fun hno => hno.1 hlast⟩
    · have hwalk : ¬ (g.high < last ∨ last = 0) := not_or.mpr ⟨hhigh, hlast⟩
      rw [Newsgroup.walk, if_neg hwalk]
      cases hdrop : g.posts.dropWhile fun p => p.n ≠ last with
      | nil =>
        have hgone : ∀ p ∈ g.posts, p.n ≠ last := by
          intro p hp
          simpa using List.dropWhile_eq_nil_iff.mp hdrop p hp
        have hnone : ¬ (g.high < last ∨ ∃ p ∈ g.posts, p.n = last ∧ id ≠ some p.id) := by
          rintro (h | ⟨p, hp, hn, -⟩)
          · exact hhigh h
          · exact hgone p hp hn
        dsimp only
        rw [Newsgroup.wanted, if_neg hnone, tail_eq_filter_iff g.ascending hgone, Newsgroup.Covered]
        refine or_congr_right ⟨fun h => ⟨hlast, by omega, Or.inr ⟨hgone, h⟩⟩, ?_⟩
        rintro ⟨-, -, ⟨p, hp, hn, -⟩ | ⟨-, h⟩⟩
        · exact absurd hn (hgone p hp)
        · exact h
      | cons p ps =>
        have hn := n_of_dropWhile hdrop
        have hposts : g.posts = (g.posts.takeWhile fun p => p.n ≠ last) ++ p :: ps := by
          rw [← hdrop, List.takeWhile_append_dropWhile]
        have hmem : p ∈ g.posts := by
          rw [hposts]
          exact List.mem_append_right _ List.mem_cons_self
        have hne : g.posts ≠ [] := List.ne_nil_of_mem hmem
        -- the last article is there, and no other has its number
        have hthere : ∀ q ∈ g.posts, q.n = last → q = p := fun q hq hqn =>
          g.n_injective hq hmem (hqn.trans hn.symm)
        dsimp only
        by_cases hid : id = some p.id
        · have hnone : ¬ (g.high < last ∨ ∃ q ∈ g.posts, q.n = last ∧ id ≠ some q.id) := by
            rintro (h | ⟨q, hq, hqn, hqid⟩)
            · exact hhigh h
            · rw [hthere q hq hqn] at hqid
              exact hqid hid
          have hafter : g.posts.filter (fun q => last < q.n) = ps := by
            have hasc := g.ascending
            rw [hposts, List.pairwise_append, List.pairwise_cons] at hasc
            obtain ⟨-, ⟨hbehind, -⟩, hfront⟩ := hasc
            rw [hposts, List.filter_append, List.filter_eq_nil_iff.mpr,
              List.filter_cons_of_neg (by simp [hn]), List.filter_eq_self.mpr, List.nil_append]
            · intro q hq
              rw [decide_eq_true_eq, ← hn]
              exact hbehind q hq
            · intro q hq
              have hlt := hfront q hq p List.mem_cons_self
              simp only [decide_eq_true_eq]
              omega
          rw [if_pos hid, Newsgroup.wanted, if_neg hnone, hafter]
          exact iff_of_true rfl (Or.inr ⟨hlast, by omega, Or.inl ⟨p, hmem, hn, hid⟩⟩)
        · rw [if_neg hid, Newsgroup.wanted, if_pos (Or.inr ⟨p, hmem, hn, hid⟩), tail_eq_self_iff]
          refine iff_of_false hne ?_
          rintro (hnil | ⟨-, -, ⟨q, hq, hqn, hqid⟩ | ⟨hgone, -⟩⟩)
          · exact hne hnil
          · rw [hthere q hq hqn] at hqid
            exact hid hqid
          · exact hgone p hmem hn

/-! ## A whole run -/

theorem map_key_articles (k : ℕ) (ps : List Post) :
    ((articles k ps).map fun a => (a.n, a.id)) = ps.map Post.key := by
  rw [articles, List.map_map]
  rfl

theorem Newsgroup.wanted_subset (g : Newsgroup) (last : ℕ) (id : Option (List Char)) :
    g.wanted last id ⊆ g.posts := by
  unfold Newsgroup.wanted
  split_ifs
  · exact List.Subset.refl _
  · exact List.filter_subset_self _

/-- A session with the server can always be finished, and when it is, the articles fetched of
a group that is configured are the right ones exactly when the group is covered. -/
theorem fetched_iff {conf : Conf} {site : Site} {e : Env} {s₀ s : Session} {ns : List ℕ}
    (hconn : Session.connect site e = some s₀)
    (hrun : exec (Session.turn conf site) s₀ ns = some s) :
    (∃ ns' t, exec (Session.turn conf site) s ns' = some t ∧ t.ended = some .exit) ∧
      ∀ code, s.ended = some code → code = .exit ∧
        ∀ k g, s₀.e.data.groups[k]? = some g → g.ignore = false →
          (s.fetchedOf k = ((site.newsgroup g.name).wanted g.last g.id).map Post.key ↔
            (site.newsgroup g.name).Covered g.last g.id) := by
  obtain ⟨w, hw⟩ := course_of_run (course_connect hconn) hrun
  refine ⟨reaches_exit hw, fun code hcode => ?_⟩
  cases hw with
  | going hnone _ => rw [hcode] at hnone; cases hnone
  | quitting hnone _ _ _ => rw [hcode] at hnone; cases hnone
  | ended hexit htotal =>
    rw [hcode, Option.some.injEq] at hexit
    refine ⟨hexit, fun k g hg hactive => ?_⟩
    have hfilter := filter_walkAll site (i := 0) hg hactive
    rw [Nat.zero_add] at hfilter
    rw [Session.fetchedOf, htotal, hfilter, map_key_articles, ← walk_eq_wanted_iff]
    constructor
    · exact (site.newsgroup g.name).eq_of_map_key (Newsgroup.walk_suffix _ _ _).subset
        (Newsgroup.wanted_subset _ _ _)
    · intro heq
      rw [Site.walk, heq]

/-! ## A group of two articles -/

/-- Two articles, with a line each. -/
def twoPosts : Newsgroup where
  posts := [⟨1, ['a'], [['x']]⟩, ⟨2, ['b'], [['y']]⟩]
  count := 2
  low := 1
  high := 2
  ascending := by decide
  numbered := by decide
  ids := by decide
  texts := by decide
  numbers := by decide

def twoPostsSite : Site where
  newsgroup _ := twoPosts
  note := ['o', 'k']

/-- One group is configured, and there is no cache file. -/
def noCache : Env := { data := { names := [['g']] }, hist := {} }

theorem twoPosts_connects : (Session.connect twoPostsSite noCache).isSome = true := by
  decide

/-- The session after the connection has been made. -/
def twoPostsBegin : Session := (Session.connect twoPostsSite noCache).get twoPosts_connects

/-- A line arrives in front of each call. -/
theorem twoPosts_runs : (exec (Session.turn {} twoPostsSite) twoPostsBegin
    (List.replicate 10 1)).isSome = true := by
  decide

/-- The session at its end. -/
def twoPostsEnd : Session :=
  (exec (Session.turn {} twoPostsSite) twoPostsBegin (List.replicate 10 1)).get twoPosts_runs

theorem fetched_iff_twoPosts :
    twoPostsEnd.fetchedOf 0 = (twoPosts.wanted 0 none).map Post.key ↔ twoPosts.Covered 0 none := by
  have hconn : Session.connect twoPostsSite noCache = some twoPostsBegin :=
    (Option.some_get twoPosts_connects).symm
  have hrun : exec (Session.turn {} twoPostsSite) twoPostsBegin (List.replicate 10 1)
      = some twoPostsEnd := (Option.some_get twoPosts_runs).symm
  have hended : twoPostsEnd.ended = some .exit := by decide +kernel
  have hgroup : twoPostsBegin.e.data.groups[0]? = some { name := ['g'] } := by decide +kernel
  exact ((fetched_iff hconn hrun).2 .exit hended).2 0 { name := ['g'] } hgroup rfl

/-- All articles should be fetched, and the first is not. -/
theorem first_passed_over :
    twoPostsEnd.ended = some .exit ∧ twoPostsEnd.fetchedOf 0 = [(2, ['b'])] ∧
      (twoPosts.wanted 0 none).map Post.key = [(1, ['a']), (2, ['b'])] := by
  decide +kernel

end Fdm.Nntp

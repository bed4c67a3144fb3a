import Fdm.Nntp.Server
import Fdm.Nntp.Invariant
import Fdm.Nntp.CacheFile
import Mathlib.Algebra.GroupWithZero.Nat

/-!
# The walk through the groups

What a session with the server of `Fdm.Nntp.Server` fetches, whatever the times at which
the lines arrive. `Going` says what is under way in each state of the fetcher, what is still
to be fetched of the group, and how much is left to be done at most.

* `keeps_call`: a call of the fetch function keeps it, and something is done when there was a
  line to be read;
* `course_of_run`: so does every run;
* `reaches_exit`: every session can be finished.
-/

namespace Fdm.Nntp

open Fdm.Fetch Lib.Runs Lib.Scanf

/-! ## What is fetched of all groups -/

/-- Articles of the group at a place in the table. -/
def articles (k : ℕ) (ps : List Post) : List Article := ps.map fun p => ⟨k, p.n, p.id⟩

namespace Site

variable (site : Site)

def walk (g : FetchNntpGroup) : List Post := (site.newsgroup g.name).walk g.last g.id

/-- The articles that are fetched of the groups from the `k`-th on. -/
def walkAll : ℕ → List FetchNntpGroup → List Article
  | _, [] => []
  | k, g :: gs => (if g.ignore then [] else articles k (site.walk g)) ++ walkAll (k + 1) gs

/-- What reading these articles costs. -/
def cost (ps : List Post) : ℕ := (ps.map fun p => p.text.length + 3).sum

/-- What fetching these groups costs. -/
def costAll (gs : List FetchNntpGroup) : ℕ :=
  (gs.map fun g => if g.ignore then 0 else cost (site.walk g) + 9).sum

theorem cost_cons (p : Post) (ps : List Post) : cost (p :: ps) = p.text.length + 3 + cost ps := by
  rw [cost, List.map_cons, List.sum_cons, cost]

end Site

/-- The groups that are not fetched do not count. -/
theorem walkAll_findIdx (site : Site) {gs : List FetchNntpGroup} {k j : ℕ}
    (h : gs.findIdx? (fun g => !g.ignore) = some j) :
    site.walkAll k gs = site.walkAll (k + j) (gs.drop j) ∧
      site.costAll gs = site.costAll (gs.drop j) := by
  induction gs generalizing k j with
  | nil => cases h
  | cons g gs ih =>
    rw [List.findIdx?_cons] at h
    by_cases hg : g.ignore = true
    · rw [if_neg (by simp [hg])] at h
      obtain ⟨i, hi, rfl⟩ := Option.map_eq_some_iff.mp h
      obtain ⟨hwalk, hcost⟩ := ih (k := k + 1) hi
      have hplace : k + 1 + i = k + (i + 1) := by omega
      refine ⟨?_, ?_⟩
      · rw [Site.walkAll, if_pos hg, List.nil_append, hwalk, hplace, List.drop_succ_cons]
      · rw [List.drop_succ_cons, ← hcost, Site.costAll, List.map_cons, if_pos hg,
          List.sum_cons, Nat.zero_add, Site.costAll]
    · rw [if_pos (by simp [hg])] at h
      obtain rfl := Option.some.inj h
      exact ⟨rfl, rfl⟩

theorem walkAll_ignored (site : Site) {gs : List FetchNntpGroup} {k : ℕ}
    (h : gs.findIdx? (fun g => !g.ignore) = none) : site.walkAll k gs = [] := by
  rw [List.findIdx?_eq_none_iff] at h
  induction gs generalizing k with
  | nil => rfl
  | cons g gs ih =>
    have hg : g.ignore = true := by simpa using h g List.mem_cons_self
    rw [Site.walkAll, if_pos hg, List.nil_append]
    exact ih fun x hx => h x (List.mem_cons_of_mem g hx)

/-- The next group that is fetched. -/
theorem walkAll_active (site : Site) {gs : List FetchNntpGroup} {i k : ℕ} {g : FetchNntpGroup}
    (h : activeFrom gs i = some k) (hg : gs[k]? = some g) (hactive : g.ignore = false) :
    site.walkAll i (gs.drop i)
        = articles k (site.walk g) ++ site.walkAll (k + 1) (gs.drop (k + 1)) ∧
      site.costAll (gs.drop i) = Site.cost (site.walk g) + 9 + site.costAll (gs.drop (k + 1)) := by
  obtain ⟨j, hj, rfl⟩ := Option.map_eq_some_iff.mp h
  obtain ⟨hwalk, hcost⟩ := walkAll_findIdx site (k := i) hj
  obtain ⟨hlt, rfl⟩ := List.getElem?_eq_some_iff.mp hg
  rw [List.drop_drop, List.drop_eq_getElem_cons hlt] at hwalk hcost
  refine ⟨?_, ?_⟩
  · rw [hwalk, Site.walkAll, if_neg (by simp [hactive])]
  · rw [hcost, Site.costAll, List.map_cons, if_neg (by simp [hactive]), List.sum_cons, Site.costAll]

/-- What is fetched of one group, among all that is fetched. -/
theorem filter_walkAll (site : Site) {gs : List FetchNntpGroup} {i k : ℕ} {g : FetchNntpGroup}
    (hg : gs[k]? = some g) (hactive : g.ignore = false) :
    (site.walkAll i gs).filter (fun a => a.group = i + k) = articles (i + k) (site.walk g) := by
  have hnone : ∀ (gs : List FetchNntpGroup) (i j : ℕ), j < i →
      (site.walkAll i gs).filter (fun a => a.group = j) = [] := by
    intro gs
    induction gs with
    | nil => exact fun _ _ _ => rfl
    | cons x gs ih =>
      intro i j hj
      rw [Site.walkAll, List.filter_append, ih (i + 1) j (by omega), List.append_nil,
        List.filter_eq_nil_iff]
      intro a ha
      split_ifs at ha
      · cases ha
      · obtain ⟨p, -, rfl⟩ := List.mem_map.mp ha
        simp only [decide_eq_true_eq]
        omega
  induction gs generalizing i k with
  | nil => cases hg
  | cons x gs ih =>
    rw [Site.walkAll, List.filter_append]
    cases k with
    | zero =>
      obtain rfl := Option.some.inj hg
      rw [Nat.add_zero, hnone gs (i + 1) i (by omega), List.append_nil, if_neg (by simp [hactive]),
        List.filter_eq_self]
      intro a ha
      obtain ⟨p, -, rfl⟩ := List.mem_map.mp ha
      exact decide_eq_true rfl
    | succ k =>
      have hrest := ih (i := i + 1) hg
      have hplace : i + 1 + k = i + (k + 1) := by omega
      rw [hplace] at hrest
      rw [hrest, List.filter_eq_nil_iff.mpr, List.nil_append]
      intro a ha
      split_ifs at ha
      · cases ha
      · obtain ⟨p, -, rfl⟩ := List.mem_map.mp ha
        simp only [decide_eq_true_eq]
        omega

/-! ## What is under way -/

namespace Session

/-- The lines that have arrived and those that have not. -/
def stream (s : Session) : List Received := s.e.inbuf ++ s.out.map received

/-- What fetching the groups behind the current one costs. -/
def behind (site : Site) (s : Session) : ℕ :=
  site.costAll (s.e.data.groups.drop (s.e.data.group + 1))

end Session

/-- The state of a session that is fetching the group `g`, the articles of it that are still
to be fetched, and what is left to be done for them at most. -/
inductive Stage (site : Site) (s : Session) (g : FetchNntpGroup) : List Post → ℕ → Prop
  | connected (hstate : s.fctx.state = .connected)
      (hstream : s.stream = [received (reply 200 site.note)]) :
      Stage site s g (site.walk g) (12 + Site.cost (site.walk g))
  | auth1 (hstate : s.fctx.state = .auth1)
      (hstream : s.stream = [received (reply 381 site.note)]) :
      Stage site s g (site.walk g) (11 + Site.cost (site.walk g))
  | auth2 (hstate : s.fctx.state = .auth2)
      (hstream : s.stream = [received (reply 281 site.note)]) :
      Stage site s g (site.walk g) (10 + Site.cost (site.walk g))
  | group (hstate : s.fctx.state = .group) (hstream : s.stream = []) :
      Stage site s g (site.walk g) ((if g.last = 0 then 5 else 9) + Site.cost (site.walk g))
  | stat (hstate : s.fctx.state = .stat)
      (hstream : s.stream = [received (site.watermarks (site.newsgroup g.name))])
      (hserving : s.serving = ⟨(site.newsgroup g.name).posts, (site.newsgroup g.name).posts⟩) :
      Stage site s g (site.walk g) ((if g.last = 0 then 4 else 8) + Site.cost (site.walk g))
  | absent (hstate : s.fctx.state = .wait)
      (hstream : s.stream = [received (reply 423 site.note)])
      (hleft : s.serving.left = (site.newsgroup g.name).posts) :
      Stage site s g (site.newsgroup g.name).posts.tail
        (7 + Site.cost (site.newsgroup g.name).posts.tail)
  | present {p : Post} {ps : List Post} (hstate : s.fctx.state = .wait) (hn : p.n = g.last)
      (hid : g.id ≠ none) (hsuffix : p :: ps <:+ (site.newsgroup g.name).posts)
      (hstream : s.stream = [received (site.post p)]) (hleft : s.serving.left = p :: ps) :
      Stage site s g (if g.id = some p.id then ps else (site.newsgroup g.name).posts.tail)
        (7 + Site.cost (if g.id = some p.id then ps else (site.newsgroup g.name).posts.tail))
  | reset (hstate : s.fctx.state = .reset) (hstream : s.stream = []) :
      Stage site s g (site.newsgroup g.name).posts.tail
        (6 + Site.cost (site.newsgroup g.name).posts.tail)
  | last {code : ℕ} (hstate : s.fctx.state = .next) (hcode : code = 420 ∨ code = 421)
      (hstream : s.stream = [received (reply code site.note)]) : Stage site s g [] 3
  | next {p : Post} {ps : List Post} (hstate : s.fctx.state = .next)
      (hstream : s.stream = [received (site.post p)]) (hleft : s.serving.left = p :: ps) :
      Stage site s g (p :: ps) (3 + Site.cost (p :: ps))
  | article {p : Post} {ps : List Post} (hstate : s.fctx.state = .article)
      (hstream : s.stream
        = received (reply 220 site.note) :: (p.text ++ [['.']]).map received)
      (hleft : s.serving.left = p :: ps)
      (hseen : s.e.hist.seen.getLast? = some ⟨s.e.data.group, p.n, p.id⟩) :
      Stage site s g (p :: ps) (2 + Site.cost (p :: ps))
  | line {p : Post} {ps : List Post} {ls : List (List Char)} (hstate : s.fctx.state = .line)
      (hstream : s.stream = (ls ++ [['.']]).map received) (hls : ['.'] ∉ ls)
      (hleft : s.serving.left = p :: ps)
      (hmail : (s.fctx.mail.auxdata.bind fun k => s.e.hist.seen[k]?)
        = some ⟨s.e.data.group, p.n, p.id⟩) :
      Stage site s g (p :: ps) (ls.length + 4 + Site.cost ps)
  | switch (hstate : s.fctx.state = .switch) (hstream : s.stream = []) : Stage site s g [] 2

/-- A group is being fetched: what has been fetched and what is still to be fetched make up
the whole. -/
structure Going (site : Site) (total : List Article) (s : Session) (g : FetchNntpGroup)
    (rest : List Post) (w : ℕ) : Prop where
  fault : s.e.fault = false
  current : s.e.data.groups[s.e.data.group]? = some g
  active : g.ignore = false
  known : ∀ x ∈ s.e.data.groups, x.last ≠ 0 → x.id ≠ none
  suffix : rest <:+ (site.newsgroup g.name).posts
  stage : Stage site s g rest w
  total : s.fetched ++ (articles s.e.data.group rest
    ++ site.walkAll (s.e.data.group + 1) (s.e.data.groups.drop (s.e.data.group + 1))) = total

/-- The state of a session, and what is left to be done at most. -/
inductive Course (site : Site) (total : List Article) (s : Session) : ℕ → Prop
  | going {g : FetchNntpGroup} {rest : List Post} {w : ℕ} (hended : s.ended = none)
      (h : Going site total s g rest w) :
      Course site total s (w + s.behind site)
  | quitting (hended : s.ended = none) (hstate : s.fctx.state = .quit)
      (hstream : s.stream = [received (reply 205 site.note)]) (htotal : s.fetched = total) :
      Course site total s 1
  | ended (hended : s.ended = some .exit) (htotal : s.fetched = total) : Course site total s 0

section Call

variable {conf : Conf} {site : Site} {total : List Article} {s t : Session} {g : FetchNntpGroup}
  {rest : List Post} {w v : ℕ}

/-- A mail of which these lines are still to come. -/
theorem Stage.text {p : Post} {ps : List Post} (ls : List (List Char))
    (hstate : s.fctx.state = .line) (hstream : s.stream = (ls ++ [['.']]).map received)
    (hls : ['.'] ∉ ls) (hleft : s.serving.left = p :: ps)
    (hmail : (s.fctx.mail.auxdata.bind fun k => s.e.hist.seen[k]?)
      = some ⟨s.e.data.group, p.n, p.id⟩) :
    Stage site s g (p :: ps) (ls.length + 4 + Site.cost ps) :=
  .line hstate hstream hls hleft hmail

variable (site) in
/-- The fetch goes on after a call that has sent some commands. -/
theorem call_goes {code : FetchCode} {fctx : Ctx} {e : Env} (cmds : List Cmd)
    (h : state conf s.fctx s.e = (code, fctx, e)) (hcode : code = .again ∨ code = .block)
    (hsent : e.hist.sent = s.e.hist.sent ++ cmds) :
    s.call conf site =
      { s with
        fctx := fctx
        e := e
        serving := (site.answers s.serving cmds).2
        out := s.out ++ (site.answers s.serving cmds).1 } := by
  rw [Session.call, h]
  dsimp only
  rw [hsent, List.drop_left]
  rcases hcode with rfl | rfl
  · rfl
  · rfl

theorem answers_singleton (sv : Serving) (cmd : Cmd) : site.answers sv [cmd] = site.answer sv cmd := by
  simp only [Site.answers, List.append_nil]

/-- A line is to come, or it has arrived. -/
theorem stream_cases {l : Received} {tail : List Received} (h : s.stream = l :: tail) :
    (s.e.inbuf = [] ∧ s.out ≠ []) ∨
      ∃ r, s.e.inbuf = l :: r ∧ r ++ s.out.map received = tail := by
  unfold Session.stream at h
  cases hin : s.e.inbuf with
  | nil =>
    rw [hin, List.nil_append] at h
    refine Or.inl ⟨rfl, fun hout => ?_⟩
    rw [hout] at h
    cases h
  | cons x r =>
    rw [hin, List.cons_append] at h
    obtain ⟨rfl, htail⟩ := List.cons.inj h
    exact Or.inr ⟨r, rfl, htail⟩

/-- What a call owes: the state of the session is kept, and less is left to be done when all
lines had arrived. -/
def Keeps (conf : Conf) (site : Site) (total : List Article) (s : Session) (w : ℕ) : Prop :=
  ∃ v, Course site total (s.call conf site) v ∧ v ≤ w ∧ (s.out = [] → v < w)

/-- A call that waits for a reply, or reads it. -/
theorem keeps_reply {l : Received} (h : Course site total s w) (hstream : s.stream = [l])
    (hwait : s.e.inbuf = [] → state conf s.fctx s.e = (.block, s.fctx, s.e))
    (hgo : s.e.inbuf = [l] → s.out = [] → ∃ v, Course site total (s.call conf site) v ∧ v < w) :
    Keeps conf site total s w := by
  rcases stream_cases hstream with ⟨hin, hout⟩ | ⟨r, hin, htail⟩
  · have hcall : s.call conf site = s := by
      rw [call_goes site [] (hwait hin) (Or.inr rfl) (List.append_nil _).symm]
      obtain ⟨fctx, e, serving, out, fetched, ended⟩ := s
      simp [Site.answers]
    exact ⟨w, hcall.symm ▸ h, Nat.le_refl w, fun hnil => absurd hnil hout⟩
  · obtain ⟨rfl, hnil⟩ := List.append_eq_nil_iff.mp htail
    obtain ⟨v, hv, hlt⟩ := hgo hin (List.map_eq_nil_iff.mp hnil)
    exact ⟨v, hv, Nat.le_of_lt hlt, fun _ => hlt⟩

/-- As long as nothing has arrived, every state that reads a reply waits for it. -/
theorem state_waits (hcurrent : s.e.data.groups[s.e.data.group]? = some g)
    (hstate : s.fctx.state
      ∈ [.connected, .auth1, .auth2, .stat, .wait, .next, .article]) (hin : s.e.inbuf = []) :
    state conf s.fctx s.e = (.block, s.fctx, s.e) := by
  have hcheck : ∀ codes k, check codes s.fctx s.e k = (.block, s.fctx, s.e) := fun _ _ =>
    checkElse_nil hin
  have hgroup : ∀ k : FetchNntpGroup → Result, withGroup s.fctx s.e k = k g := by
    intro k
    rw [withGroup, hcurrent]
  -- one case for each state that calls `fetch_nntp_check`
  simp only [List.mem_cons, List.not_mem_nil, or_false] at hstate
  rcases hstate with hstate | hstate | hstate | hstate | hstate | hstate | hstate
  all_goals
    rw [state, hstate]
    dsimp only
  · exact hcheck _ _
  · exact hcheck _ _
  · exact checkElse_nil hin
  · exact (hgroup _).trans (hcheck _ _)
  · exact (hgroup _).trans (hcheck _ _)
  · exact (hgroup _).trans (hcheck _ _)
  · exact (hgroup _).trans (hcheck _ _)

/-- While a group is fetched, it is enough to say what is done with the reply. -/
theorem Going.keeps_reply {l : Received} (h : Going site total s g rest w)
    (hended : s.ended = none)
    (hstate : s.fctx.state ∈ [.connected, .auth1, .auth2, .stat, .wait, .next, .article])
    (hstream : s.stream = [l])
    (hgo : s.e.inbuf = [l] → s.out = [] →
      ∃ v, Course site total (s.call conf site) v ∧ v < w + s.behind site) :
    Keeps conf site total s (w + s.behind site) :=
  Nntp.keeps_reply (.going hended h) hstream (state_waits h.current hstate) hgo

/-- A call that does not wait. -/
theorem Keeps.of_lt (h : Course site total (s.call conf site) v) (hlt : v < w) :
    Keeps conf site total s w :=
  ⟨v, h, Nat.le_of_lt hlt, fun _ => hlt⟩

/-- The groups stay as they are. -/
theorem Going.move (h : Going site total s g rest w) (hended : s.ended = none)
    (hgroups : t.e.data.groups = s.e.data.groups) (hgroup : t.e.data.group = s.e.data.group)
    (hfault : t.e.fault = s.e.fault) (hfetched : t.fetched = s.fetched)
    (hended' : t.ended = s.ended) (hstage : Stage site t g rest v) :
    Course site total t (v + s.behind site) := by
  have hbehind : t.behind site = s.behind site := by
    rw [Session.behind, hgroups, hgroup, Session.behind]
  rw [← hbehind]
  refine .going (hended'.trans hended) ⟨hfault.trans h.fault, ?_, h.active, ?_, h.suffix, hstage, ?_⟩
  · rw [hgroups, hgroup]
    exact h.current
  · rw [hgroups]
    exact h.known
  · rw [hgroups, hgroup, hfetched]
    exact h.total

/-- The group that is being fetched is changed. -/
theorem Going.set {g' : FetchNntpGroup} {rest' : List Post} (h : Going site total s g rest w)
    (hended : s.ended = none) (hgroups : t.e.data.groups = s.e.data.groups.set s.e.data.group g')
    (hgroup : t.e.data.group = s.e.data.group) (hfault : t.e.fault = s.e.fault)
    (hended' : t.ended = s.ended) (hname : g'.name = g.name) (hignore : g'.ignore = g.ignore)
    (hknown : g'.last ≠ 0 → g'.id ≠ none) (hsuffix : rest' <:+ rest)
    (hfetched : t.fetched ++ articles s.e.data.group rest'
      = s.fetched ++ articles s.e.data.group rest)
    (hstage : Stage site t g' rest' v) :
    Course site total t (v + s.behind site) := by
  have hdrop : t.e.data.groups.drop (t.e.data.group + 1)
      = s.e.data.groups.drop (s.e.data.group + 1) := by
    rw [hgroups, hgroup, List.drop_set_of_lt (by omega)]
  have hbehind : t.behind site = s.behind site := by
    rw [Session.behind, hdrop, Session.behind]
  rw [← hbehind]
  refine .going (hended'.trans hended)
    ⟨hfault.trans h.fault, ?_, hignore.trans h.active, ?_, ?_, hstage, ?_⟩
  · have hlt := (List.getElem?_eq_some_iff.mp h.current).1
    rw [hgroups, hgroup, List.getElem?_set_self hlt]
  · rw [hgroups]
    intro x hx
    rcases List.mem_or_eq_of_mem_set hx with hx | rfl
    · exact h.known x hx
    · exact hknown
  · rw [hname]
    exact hsuffix.trans h.suffix
  · rw [hdrop, hgroup, ← List.append_assoc, hfetched, List.append_assoc]
    exact h.total

/-- A call changes the group, and nothing of it is fetched. -/
theorem Going.set_call {g' : FetchNntpGroup} {code : FetchCode} {fctx : Ctx} {e : Env}
    (cmds : List Cmd) (h : Going site total s g rest w) (hended : s.ended = none)
    (hread : state conf s.fctx s.e = (code, fctx, e)) (hcode : code = .again ∨ code = .block)
    (hsent : e.hist.sent = s.e.hist.sent ++ cmds)
    (hgroups : e.data.groups = s.e.data.groups.set s.e.data.group g')
    (hgroup : e.data.group = s.e.data.group) (hfault : e.fault = s.e.fault)
    (hname : g'.name = g.name) (hignore : g'.ignore = g.ignore)
    (hknown : g'.last ≠ 0 → g'.id ≠ none) (hstage : Stage site (s.call conf site) g' rest v) :
    Course site total (s.call conf site) (v + s.behind site) := by
  have hcall := call_goes site cmds hread hcode hsent
  refine h.set hended ?_ ?_ ?_ ?_ hname hignore hknown (List.suffix_refl _) ?_ hstage
  · rw [hcall]
    exact hgroups
  · rw [hcall]
    exact hgroup
  · rw [hcall]
    exact hfault
  · rw [hcall]
  · rw [hcall]

/-- What follows `NEXT`. -/
theorem stage_next (sv : Serving) (hstate : t.fctx.state = .next)
    (hstream : t.stream = (site.answer sv .next).1.map received)
    (hserving : t.serving = (site.answer sv .next).2) :
    Stage site t g sv.left.tail (3 + Site.cost sv.left.tail) := by
  obtain ⟨selected, left⟩ := sv
  match left with
  | [] => exact .last hstate (Or.inl rfl) hstream
  | [_] => exact .last hstate (Or.inr rfl) hstream
  | _ :: p :: ps =>
    refine .next hstate hstream ?_
    rw [hserving]
    rfl

/-- The lines that are sent when there was nothing under way. -/
theorem stream_answer (ls : List (List Char)) (hin : t.e.inbuf = []) (hout : t.out = s.out ++ ls)
    (hempty : s.out = []) : t.stream = ls.map received := by
  rw [Session.stream, hin, hout, hempty]
  rfl

/-- Nothing is under way. -/
theorem stream_nil (h : s.stream = []) : s.e.inbuf = [] ∧ s.out = [] := by
  obtain ⟨hin, hout⟩ := List.append_eq_nil_iff.mp h
  exact ⟨hin, List.map_eq_nil_iff.mp hout⟩

/-! ## Connecting -/

/-- What is left to be done before the articles of a group are fetched. -/
def todo (site : Site) (g : FetchNntpGroup) : ℕ :=
  (if g.last = 0 then 5 else 9) + Site.cost (site.walk g)

theorem todo_le (site : Site) (g : FetchNntpGroup) : todo site g ≤ 9 + Site.cost (site.walk g) := by
  rw [todo]
  split_ifs
  · omega
  · omega

theorem Going.keeps_connected (h : Going site total s g (site.walk g) w) (hended : s.ended = none)
    (hstate : s.fctx.state = .connected) (hstream : s.stream = [received (reply 200 site.note)])
    (hw : w = 12 + Site.cost (site.walk g)) : Keeps conf site total s (w + s.behind site) := by
  refine h.keeps_reply hended (by rw [hstate]; decide) hstream fun hin hout => ?_
  have hcheck : ∀ k : List Char → ℕ → Env → Result,
      check [200, 201] s.fctx s.e k = k (reply 200 site.note) 200 { s.e with inbuf := [] } := by
    intro k
    exact checkElse_reply (by decide) (by decide) (by decide) hin
  by_cases hauth : ∃ user pass, s.e.data.user = some user ∧ s.e.data.pass = some pass
  · obtain ⟨user, pass, huser, hpass⟩ := hauth
    have hread : state conf s.fctx s.e
        = writeline (.user user) .auth1 s.fctx { s.e with inbuf := [] } := by
      rw [state, hstate]
      dsimp only
      rw [stateConnected, hcheck]
      dsimp only
      rw [huser, hpass]
    have hcall := call_goes site [.user user] hread (Or.inr rfl) rfl
    have hkept : Course site total (s.call conf site)
        (11 + Site.cost (site.walk g) + s.behind site) := by
      rw [hcall, answers_singleton]
      exact h.move hended rfl rfl rfl rfl rfl
        (.auth1 rfl (stream_answer [reply 381 site.note] rfl rfl hout))
    exact ⟨_, hkept, by omega⟩
  · have hgroup : state conf s.fctx s.e
        = (.again, { s.fctx with state := .group }, { s.e with inbuf := [] }) := by
      rw [state, hstate]
      dsimp only
      rw [stateConnected, hcheck]
      dsimp only
      split
      · next user pass huser hpass => exact absurd ⟨user, pass, huser, hpass⟩ hauth
      · rfl
    have hcall := call_goes site [] hgroup (Or.inl rfl) (List.append_nil _).symm
    have hkept : Course site total (s.call conf site) (todo site g + s.behind site) := by
      rw [hcall]
      exact h.move hended rfl rfl rfl rfl rfl (.group rfl (stream_answer [] rfl rfl hout))
    have htodo := todo_le site g
    exact ⟨_, hkept, by omega⟩

theorem Going.keeps_auth1 (h : Going site total s g (site.walk g) w) (hended : s.ended = none)
    (hstate : s.fctx.state = .auth1) (hstream : s.stream = [received (reply 381 site.note)])
    (hw : w = 11 + Site.cost (site.walk g)) : Keeps conf site total s (w + s.behind site) := by
  refine h.keeps_reply hended (by rw [hstate]; decide) hstream fun hin hout => ?_
  have hread : state conf s.fctx s.e
      = writeline (.pass s.e.data.pass) .auth2 s.fctx { s.e with inbuf := [] } := by
    rw [state, hstate]
    dsimp only
    rw [stateAuth1, check, checkElse_reply (by decide) (by decide) (by decide) hin]
  have hcall := call_goes site [.pass s.e.data.pass] hread (Or.inr rfl) rfl
  have hkept : Course site total (s.call conf site)
      (10 + Site.cost (site.walk g) + s.behind site) := by
    rw [hcall, answers_singleton]
    exact h.move hended rfl rfl rfl rfl rfl
      (.auth2 rfl (stream_answer [reply 281 site.note] rfl rfl hout))
  exact ⟨_, hkept, by omega⟩

theorem Going.keeps_auth2 (h : Going site total s g (site.walk g) w) (hended : s.ended = none)
    (hstate : s.fctx.state = .auth2) (hstream : s.stream = [received (reply 281 site.note)])
    (hw : w = 10 + Site.cost (site.walk g)) : Keeps conf site total s (w + s.behind site) := by
  refine h.keeps_reply hended (by rw [hstate]; decide) hstream fun hin hout => ?_
  have hread : state conf s.fctx s.e
      = (.again, { s.fctx with state := .group }, { s.e with inbuf := [] }) := by
    rw [state, hstate]
    dsimp only
    rw [stateAuth2, checkElse_reply (by decide) (by decide) (by decide) hin]
  have hcall := call_goes site [] hread (Or.inl rfl) (List.append_nil _).symm
  have hkept : Course site total (s.call conf site) (todo site g + s.behind site) := by
    rw [hcall]
    exact h.move hended rfl rfl rfl rfl rfl (.group rfl (stream_answer [] rfl rfl hout))
  have htodo := todo_le site g
  exact ⟨_, hkept, by omega⟩

/-! ## Selecting a group -/

theorem Going.keeps_group (h : Going site total s g (site.walk g) w) (hended : s.ended = none)
    (hstate : s.fctx.state = .group) (hstream : s.stream = []) (hw : w = todo site g) :
    Keeps conf site total s (w + s.behind site) := by
  obtain ⟨hin, hout⟩ := stream_nil hstream
  have hread : state conf s.fctx s.e = writeline (.group g.name) .stat s.fctx s.e := by
    rw [state, hstate]
    dsimp only
    rw [stateGroup, withGroup, h.current]
  have hcall := call_goes site [.group g.name] hread (Or.inr rfl) rfl
  have hkept : Course site total (s.call conf site)
      ((if g.last = 0 then 4 else 8) + Site.cost (site.walk g) + s.behind site) := by
    rw [hcall, answers_singleton]
    exact h.move hended rfl rfl rfl rfl rfl (.stat rfl
      (stream_answer [site.watermarks (site.newsgroup g.name)] hin rfl hout) rfl)
  refine Keeps.of_lt hkept ?_
  rw [hw, todo]
  split_ifs
  · omega
  · omega

theorem Going.keeps_reset (h : Going site total s g (site.newsgroup g.name).posts.tail w)
    (hended : s.ended = none) (hstate : s.fctx.state = .reset) (hstream : s.stream = [])
    (hw : w = 6 + Site.cost (site.newsgroup g.name).posts.tail) :
    Keeps conf site total s (w + s.behind site) := by
  obtain ⟨hin, hout⟩ := stream_nil hstream
  obtain ⟨g', hg'⟩ : ∃ g' : FetchNntpGroup, g' = { g with id := none, last := 0 } := ⟨_, rfl⟩
  have hread : state conf s.fctx s.e = (.again, { s.fctx with state := .group },
      setGroup g' { s.e with hist :=
        { s.e.hist with resets := s.e.hist.resets ++ [s.e.data.group] } }) := by
    rw [state, hstate, hg']
    dsimp only
    rw [stateReset, withGroup, h.current]
  have hcall := call_goes site [] hread (Or.inl rfl) (List.append_nil _).symm
  have hname : g'.name = g.name := by rw [hg']
  have hlast : g'.last = 0 := by rw [hg']
  have hwalk : site.walk g' = (site.newsgroup g.name).posts.tail := by
    rw [Site.walk, hname, hlast, Newsgroup.walk_zero]
  have hstage : Stage site (s.call conf site) g' (site.walk g') (todo site g') := by
    rw [hcall]
    exact .group rfl (stream_answer [] hin rfl hout)
  rw [hwalk] at hstage
  have hkept := h.set_call [] hended hread (Or.inl rfl) (List.append_nil _).symm rfl rfl rfl hname
    (by rw [hg']) (fun hne => absurd hlast hne) hstage
  refine Keeps.of_lt hkept ?_
  rw [hw, todo, if_pos hlast, hwalk]
  omega

/-- The number that is looked for is that of the first article that is left. -/
theorem n_of_dropWhile {ps qs : List Post} {p : Post} {n : ℕ}
    (h : (ps.dropWhile fun p => p.n ≠ n) = p :: qs) : p.n = n := by
  have hhead := List.head?_dropWhile_not (fun p : Post => decide (p.n ≠ n)) ps
  rw [h] at hhead
  simpa using hhead

theorem Going.keeps_stat (h : Going site total s g (site.walk g) w) (hended : s.ended = none)
    (hstate : s.fctx.state = .stat)
    (hstream : s.stream = [received (site.watermarks (site.newsgroup g.name))])
    (hserving : s.serving = ⟨(site.newsgroup g.name).posts, (site.newsgroup g.name).posts⟩)
    (hw : w = (if g.last = 0 then 4 else 8) + Site.cost (site.walk g)) :
    Keeps conf site total s (w + s.behind site) := by
  refine h.keeps_reply hended (by rw [hstate]; decide) hstream fun hin hout => ?_
  have hread : state conf s.fctx s.e =
      if (site.newsgroup g.name).high < g.last then
        (.again, { s.fctx with state := .reset },
          setGroup { g with size := (site.newsgroup g.name).count } { s.e with inbuf := [] })
      else if g.last ≠ 0 then
        writeline (.stat g.last) .wait s.fctx
          (setGroup { g with size := (site.newsgroup g.name).high - g.last }
            { s.e with inbuf := [] })
      else
        writeline .next .next s.fctx
          (setGroup { g with size := (site.newsgroup g.name).high - g.last }
            { s.e with inbuf := [] }) := by
    have hscan : sscanf line211 (site.watermarks (site.newsgroup g.name)) = _ :=
      sscanf_watermarks site (site.newsgroup g.name)
    rw [Site.watermarks] at hscan hin
    rw [state, hstate]
    dsimp only
    rw [stateStat, withGroup, h.current]
    dsimp only
    rw [check, checkElse_reply (by decide) (by decide) (by decide) hin, hscan]
  have hknown : g.last ≠ 0 → g.id ≠ none := h.known g (List.mem_of_getElem? h.current)
  by_cases hhigh : (site.newsgroup g.name).high < g.last
  · rw [if_pos hhigh] at hread
    have hwalk : site.walk g = (site.newsgroup g.name).posts.tail := by
      rw [Site.walk, Newsgroup.walk, if_pos (Or.inl hhigh)]
    have hcall := call_goes site [] hread (Or.inl rfl) (List.append_nil _).symm
    rw [hwalk] at h hw
    have hkept : Course site total (s.call conf site)
        (6 + Site.cost (site.newsgroup g.name).posts.tail + s.behind site) :=
      h.set_call [] hended hread (Or.inl rfl) (List.append_nil _).symm rfl rfl rfl rfl rfl hknown
        (by rw [hcall]; exact .reset rfl (stream_answer [] rfl rfl hout))
    refine ⟨_, hkept, ?_⟩
    rw [hw, if_neg (by omega)]
    omega
  · rw [if_neg hhigh] at hread
    by_cases hlast : g.last = 0
    · rw [if_neg (not_not.mpr hlast)] at hread
      have hwalk : site.walk g = (site.newsgroup g.name).posts.tail := by
        rw [Site.walk, hlast, Newsgroup.walk_zero]
      have hcall := call_goes site [.next] hread (Or.inr rfl) rfl
      have hstage := stage_next (t := s.call conf site) s.serving
        (g := { g with size := (site.newsgroup g.name).high - g.last })
        (by rw [hcall])
        (by rw [hcall, answers_singleton]; exact stream_answer _ rfl rfl hout)
        (by rw [hcall, answers_singleton])
      rw [hwalk] at h hw
      rw [hserving] at hstage
      have hkept : Course site total (s.call conf site)
          (3 + Site.cost (site.newsgroup g.name).posts.tail + s.behind site) :=
        h.set_call [.next] hended hread (Or.inr rfl) rfl rfl rfl rfl rfl rfl hknown hstage
      refine ⟨_, hkept, ?_⟩
      rw [hw, if_pos hlast]
      omega
    · rw [if_pos hlast] at hread
      have hcall := call_goes site [.stat g.last] hread (Or.inr rfl) rfl
      rw [answers_singleton, Site.answer, hserving] at hcall
      have hgone : ¬ ((site.newsgroup g.name).high < g.last ∨ g.last = 0) :=
        not_or.mpr ⟨hhigh, hlast⟩
      have hsuffix := List.dropWhile_suffix (l := (site.newsgroup g.name).posts)
        fun p => decide (p.n ≠ g.last)
      cases hdrop : (site.newsgroup g.name).posts.dropWhile fun p => p.n ≠ g.last with
      | nil =>
        rw [hdrop] at hcall
        have hwalk : site.walk g = (site.newsgroup g.name).posts.tail := by
          rw [Site.walk, Newsgroup.walk, if_neg hgone, hdrop]
        rw [hwalk] at h hw
        have hkept : Course site total (s.call conf site)
            (7 + Site.cost (site.newsgroup g.name).posts.tail + s.behind site) :=
          h.set_call [.stat g.last] hended hread (Or.inr rfl) rfl rfl rfl rfl rfl rfl hknown (by
            rw [hcall]
            exact .absent rfl (stream_answer [reply 423 site.note] rfl rfl hout) rfl)
        refine ⟨_, hkept, ?_⟩
        rw [hw, if_neg hlast]
        omega
      | cons p ps =>
        rw [hdrop] at hcall hsuffix
        have hwalk : site.walk g
            = if g.id = some p.id then ps else (site.newsgroup g.name).posts.tail := by
          rw [Site.walk, Newsgroup.walk, if_neg hgone, hdrop]
        rw [hwalk] at h hw
        have hkept : Course site total (s.call conf site)
            (7 + Site.cost (if g.id = some p.id then ps
              else (site.newsgroup g.name).posts.tail) + s.behind site) :=
          h.set_call [.stat g.last] hended hread (Or.inr rfl) rfl rfl rfl rfl rfl rfl hknown (by
            rw [hcall]
            exact .present rfl (n_of_dropWhile hdrop) (hknown hlast) hsuffix
              (stream_answer [site.post p] rfl rfl hout) rfl)
        refine ⟨_, hkept, ?_⟩
        rw [hw, if_neg hlast]
        omega

/-! ## Walking through a group -/

/-- The reply that names an article is read back. -/
theorem parse223_of_suffix {p : Post} {ps : List Post}
    (h : p :: ps <:+ (site.newsgroup g.name).posts) :
    parse223 (site.post p) = some (p.n, p.id) := by
  have hmem : p ∈ (site.newsgroup g.name).posts := h.mem List.mem_cons_self
  have hhigh := (site.newsgroup g.name).numbers.2.2
  have hn := ((site.newsgroup g.name).numbered p hmem).2
  exact parse223_post site (by omega) ((site.newsgroup g.name).ids p hmem)

theorem Going.keeps_absent (h : Going site total s g (site.newsgroup g.name).posts.tail w)
    (hended : s.ended = none) (hstate : s.fctx.state = .wait)
    (hstream : s.stream = [received (reply 423 site.note)])
    (hleft : s.serving.left = (site.newsgroup g.name).posts)
    (hw : w = 7 + Site.cost (site.newsgroup g.name).posts.tail) :
    Keeps conf site total s (w + s.behind site) := by
  refine h.keeps_reply hended (by rw [hstate]; decide) hstream fun hin hout => ?_
  have hread : state conf s.fctx s.e
      = writeline .next .next s.fctx { s.e with inbuf := [] } := by
    rw [state, hstate]
    dsimp only
    rw [stateWait, withGroup, h.current]
    dsimp only
    rw [check, checkElse_reply (by decide) (by decide) (by decide) hin]
    exact if_neg (by decide)
  have hcall := call_goes site [.next] hread (Or.inr rfl) rfl
  have hkept : Course site total (s.call conf site)
      (3 + Site.cost (site.newsgroup g.name).posts.tail + s.behind site) := by
    rw [← hleft] at h ⊢
    rw [hcall, answers_singleton]
    exact h.move hended rfl rfl rfl rfl rfl
      (stage_next s.serving rfl (stream_answer _ rfl rfl hout) rfl)
  exact ⟨_, hkept, by omega⟩

theorem Going.keeps_present {p : Post} {ps : List Post}
    (h : Going site total s g
      (if g.id = some p.id then ps else (site.newsgroup g.name).posts.tail) w)
    (hended : s.ended = none) (hstate : s.fctx.state = .wait) (hn : p.n = g.last)
    (hid : g.id ≠ none) (hsuffix : p :: ps <:+ (site.newsgroup g.name).posts)
    (hstream : s.stream = [received (site.post p)]) (hleft : s.serving.left = p :: ps)
    (hw : w = 7 + Site.cost (if g.id = some p.id then ps
      else (site.newsgroup g.name).posts.tail)) :
    Keeps conf site total s (w + s.behind site) := by
  refine h.keeps_reply hended (by rw [hstate]; decide) hstream fun hin hout => ?_
  have hread : state conf s.fctx s.e =
      if g.id ≠ some p.id then
        (.again, { s.fctx with state := .reset }, { s.e with inbuf := [] })
      else writeline .next .next s.fctx { s.e with inbuf := [] } := by
    have hparse := parse223_of_suffix hsuffix
    rw [Site.post] at hin hparse
    rw [state, hstate]
    dsimp only
    rw [stateWait, withGroup, h.current]
    dsimp only
    rw [check, checkElse_reply (by decide) (by decide) (by decide) hin, if_pos rfl, hparse]
    dsimp only
    rw [if_neg (not_not.mpr hn), if_neg hid]
  by_cases hsame : g.id = some p.id
  · rw [if_neg (not_not.mpr hsame)] at hread
    rw [if_pos hsame] at h hw
    have hcall := call_goes site [.next] hread (Or.inr rfl) rfl
    have hkept : Course site total (s.call conf site) (3 + Site.cost ps + s.behind site) := by
      have htail : s.serving.left.tail = ps := by rw [hleft, List.tail_cons]
      rw [← htail] at h ⊢
      rw [hcall, answers_singleton]
      exact h.move hended rfl rfl rfl rfl rfl
        (stage_next s.serving rfl (stream_answer _ rfl rfl hout) rfl)
    exact ⟨_, hkept, by omega⟩
  · rw [if_pos hsame] at hread
    rw [if_neg hsame] at h hw
    have hcall := call_goes site [] hread (Or.inl rfl) (List.append_nil _).symm
    have hkept : Course site total (s.call conf site)
        (6 + Site.cost (site.newsgroup g.name).posts.tail + s.behind site) := by
      rw [hcall]
      exact h.move hended rfl rfl rfl rfl rfl (.reset rfl (stream_answer [] rfl rfl hout))
    exact ⟨_, hkept, by omega⟩

theorem Going.keeps_last {code : ℕ} (h : Going site total s g [] w) (hended : s.ended = none)
    (hstate : s.fctx.state = .next) (hcode : code = 420 ∨ code = 421)
    (hstream : s.stream = [received (reply code site.note)]) (hw : w = 3) :
    Keeps conf site total s (w + s.behind site) := by
  refine h.keeps_reply hended (by rw [hstate]; decide) hstream fun hin hout => ?_
  have hread : state conf s.fctx s.e
      = (.again, { s.fctx with state := .switch }, { s.e with inbuf := [] }) := by
    have hmem : code ∈ [223, 420, 421] := by rcases hcode with rfl | rfl <;> decide
    rw [state, hstate]
    dsimp only
    rw [stateNext, withGroup, h.current]
    dsimp only
    rw [check, checkElse_reply (by omega) (by omega) hmem hin]
    exact if_pos hcode
  have hcall := call_goes site [] hread (Or.inl rfl) (List.append_nil _).symm
  have hkept : Course site total (s.call conf site) (2 + s.behind site) := by
    rw [hcall]
    exact h.move hended rfl rfl rfl rfl rfl (.switch rfl (stream_answer [] rfl rfl hout))
  exact ⟨_, hkept, by omega⟩

theorem Going.keeps_next {p : Post} {ps : List Post} (h : Going site total s g (p :: ps) w)
    (hended : s.ended = none) (hstate : s.fctx.state = .next)
    (hstream : s.stream = [received (site.post p)]) (hleft : s.serving.left = p :: ps)
    (hw : w = 3 + Site.cost (p :: ps)) : Keeps conf site total s (w + s.behind site) := by
  refine h.keeps_reply hended (by rw [hstate]; decide) hstream fun hin hout => ?_
  obtain ⟨e, he⟩ : ∃ e : Env, e = setGroup { g with last := p.n, id := some p.id }
      { s.e with
        inbuf := []
        hist := { s.e.hist with
          seen := s.e.hist.seen ++ [⟨s.e.data.group, p.n, p.id⟩] } } := ⟨_, rfl⟩
  have hread : state conf s.fctx s.e = writeline .article .article s.fctx e := by
    have hparse := parse223_of_suffix h.suffix
    rw [Site.post] at hin hparse
    rw [state, hstate, he]
    dsimp only
    rw [stateNext, withGroup, h.current]
    dsimp only
    rw [check, checkElse_reply (by decide) (by decide) (by decide) hin, if_neg (by decide),
      hparse]
  have hcall := call_goes site [.article] hread (Or.inr rfl) (by rw [he]; rfl)
  rw [answers_singleton, Site.answer, hleft] at hcall
  have hgroups : e.data.groups
      = s.e.data.groups.set s.e.data.group { g with last := p.n, id := some p.id } := by
    rw [he]
    rfl
  have hkept : Course site total (s.call conf site)
      (2 + Site.cost (p :: ps) + s.behind site) :=
    h.set_call [.article] hended hread (Or.inr rfl) (by rw [he]; rfl) hgroups (by rw [he]; rfl)
      (by rw [he]; rfl) rfl rfl
      (fun _ => Option.some_ne_none _) (by
        rw [hcall, he]
        exact .article rfl (stream_answer (reply 220 site.note :: p.text ++ [['.']]) rfl rfl hout)
          hleft List.getLast?_concat)
  exact ⟨_, hkept, by omega⟩

/-! ## Reading an article -/

theorem Going.keeps_article {p : Post} {ps : List Post} (h : Going site total s g (p :: ps) w)
    (hended : s.ended = none) (hstate : s.fctx.state = .article)
    (hstream : s.stream
      = received (reply 220 site.note) :: (p.text ++ [['.']]).map received)
    (hleft : s.serving.left = p :: ps)
    (hseen : s.e.hist.seen.getLast? = some ⟨s.e.data.group, p.n, p.id⟩)
    (hw : w = 2 + Site.cost (p :: ps)) : Keeps conf site total s (w + s.behind site) := by
  rcases stream_cases hstream with ⟨hin, hout⟩ | ⟨r, hin, hr⟩
  · have hread : state conf s.fctx s.e = (.block, s.fctx, s.e) :=
      state_waits h.current (by rw [hstate]; decide) hin
    have hcall := call_goes site [] hread (Or.inr rfl) (List.append_nil _).symm
    have hkept : Course site total (s.call conf site) (w + s.behind site) := by
      rw [hcall, hw]
      refine h.move hended rfl rfl rfl rfl rfl (.article hstate ?_ hleft hseen)
      rw [← hstream]
      exact congrArg (fun out => s.e.inbuf ++ List.map received out) (List.append_nil s.out)
    exact ⟨_, hkept, Nat.le_refl _, fun hnil => absurd hnil hout⟩
  · have hread : state conf s.fctx s.e = (.again,
        { s.fctx with
          state := .line
          mail := { s.fctx.mail with data := [], auxdata := some (s.e.hist.seen.length - 1) } },
        { s.e with inbuf := r, data := { s.e.data with flushing := false } }) := by
      rw [state, hstate]
      dsimp only
      rw [stateArticle, withGroup, h.current]
      dsimp only
      rw [check, checkElse_reply (by decide) (by decide) (by decide) hin, if_neg (by decide),
        if_neg (by simp [h.fault])]
    have hcall := call_goes site [] hread (Or.inl rfl) (List.append_nil _).symm
    have hkept : Course site total (s.call conf site)
        (p.text.length + 4 + Site.cost ps + s.behind site) := by
      rw [hcall]
      refine h.move hended rfl rfl rfl rfl rfl (Stage.text p.text rfl ?_ ?_ hleft ?_)
      · rw [← hr]
        exact congrArg (fun out => r ++ List.map received out) (List.append_nil s.out)
      · exact (site.newsgroup g.name).texts p (h.suffix.mem List.mem_cons_self)
      · show s.e.hist.seen[s.e.hist.seen.length - 1]? = _
        rw [← List.getLast?_eq_getElem?, hseen]
    refine Keeps.of_lt hkept ?_
    rw [hw, Site.cost_cons]
    omega

/-- Lines of the text go into the mail. -/
theorem readLines_front (conf : Conf) {ls : List (List Char)} (hls : ['.'] ∉ ls)
    (rest : List Received) (m : Mail ℕ) (flushing : Bool) :
    ∃ m' flushing', m'.auxdata = m.auxdata ∧
      readLines conf false (ls.map received ++ rest) m flushing
        = readLines conf false rest m' flushing' := by
  induction ls generalizing m flushing with
  | nil => exact ⟨m, flushing, rfl, rfl⟩
  | cons l ls ih =>
    rw [List.mem_cons, not_or] at hls
    rw [List.map_cons, List.cons_append, received, readLines, if_neg (Ne.symm hls.1)]
    by_cases hflush : flushing = true
    · rw [if_pos hflush]
      exact ih hls.2 m flushing
    · rw [if_neg hflush, if_neg Bool.false_ne_true]
      dsimp only
      generalize hm : m.appendLine (if l.head? = some '.' then l.tail else l) = m₁
      obtain ⟨m', flushing', haux, heq⟩ := ih hls.2 m₁ (decide (conf.maxSize < m₁.size))
      refine ⟨m', flushing', haux.trans ?_, heq⟩
      rw [← hm, Mail.appendLine_auxdata]

theorem received_injective : Function.Injective received := by
  intro l l' h
  exact (Received.line.inj h).1

theorem Going.keeps_line {p : Post} {ps : List Post} {ls : List (List Char)}
    (h : Going site total s g (p :: ps) w) (hended : s.ended = none)
    (hstate : s.fctx.state = .line) (hstream : s.stream = (ls ++ [['.']]).map received)
    (hls : ['.'] ∉ ls) (hleft : s.serving.left = p :: ps)
    (hmail : (s.fctx.mail.auxdata.bind fun k => s.e.hist.seen[k]?)
      = some ⟨s.e.data.group, p.n, p.id⟩)
    (hw : w = ls.length + 4 + Site.cost ps) : Keeps conf site total s (w + s.behind site) := by
  obtain ⟨here, out, hsplit, hin, hout⟩ := List.map_eq_append_iff.mp hstream.symm
  obtain rfl : out = s.out := received_injective.list_map hout
  by_cases hlast : s.out = []
  · -- the end of the text has arrived
    rw [hlast, List.append_nil] at hsplit
    obtain ⟨m, flushing, haux, hfront⟩ :=
      readLines_front conf hls [received ['.']] s.fctx.mail s.e.data.flushing
    have hread : state conf s.fctx s.e = (.mail,
        (writeline .next .next { s.fctx with mail := m }
          { s.e with inbuf := [], data := { s.e.data with flushing := flushing } }).2) := by
      rw [state, hstate]
      dsimp only
      rw [stateLine, h.fault, ← hin, ← hsplit, List.map_append, List.map_singleton, hfront, received,
        readLines, if_pos rfl]
    have hcall : s.call conf site =
        { s with
          fctx := { s.fctx with state := .next, mail := {} }
          e := { s.e with
            inbuf := []
            data := { s.e.data with flushing := flushing }
            hist := { s.e.hist with sent := s.e.hist.sent ++ [.next] } }
          serving := (site.answer s.serving .next).2
          out := s.out ++ (site.answer s.serving .next).1
          fetched := s.fetched ++ [⟨s.e.data.group, p.n, p.id⟩] } := by
      rw [Session.call, hread]
      dsimp only [writeline]
      rw [List.drop_left, answers_singleton, haux, hmail]
      rfl
    have hset : s.e.data.groups.set s.e.data.group g = s.e.data.groups := by
      obtain ⟨hlt, hget⟩ := List.getElem?_eq_some_iff.mp h.current
      rw [← hget]
      exact List.set_getElem_self hlt
    have hstage := stage_next (t := s.call conf site) (g := g) s.serving
      (by rw [hcall]) (by rw [hcall]; exact stream_answer _ rfl rfl hlast) (by rw [hcall])
    have hkept : Course site total (s.call conf site) (3 + Site.cost ps + s.behind site) := by
      rw [hleft, List.tail_cons] at hstage
      refine h.set hended ?_ ?_ ?_ ?_ rfl rfl (h.known g (List.mem_of_getElem? h.current))
        (List.suffix_cons p ps) ?_ hstage
      · rw [hcall, hset]
      · rw [hcall]
      · rw [hcall]
      · rw [hcall]
      · rw [hcall, List.append_assoc]
        rfl
    exact Keeps.of_lt hkept (by omega)
  · -- more of the text is to come
    obtain ⟨later, x, hlater⟩ := (List.eq_nil_or_concat s.out).resolve_left hlast
    rw [hlater, List.concat_eq_append, ← List.append_assoc] at hsplit
    obtain ⟨hls', hx⟩ := List.append_inj' hsplit rfl
    have hhere : ['.'] ∉ here := fun hmem => hls (by rw [hls']; exact List.mem_append_left _ hmem)
    obtain ⟨m, flushing, haux, hfront⟩ :=
      readLines_front conf hhere [] s.fctx.mail s.e.data.flushing
    have hread : state conf s.fctx s.e = (.block, { s.fctx with mail := m },
        { s.e with inbuf := [], data := { s.e.data with flushing := flushing } }) := by
      rw [List.append_nil] at hfront
      rw [state, hstate]
      dsimp only
      rw [stateLine, h.fault, ← hin, hfront, readLines]
    have hcall := call_goes site [] hread (Or.inr rfl) (List.append_nil _).symm
    have hkept : Course site total (s.call conf site)
        (later.length + 4 + Site.cost ps + s.behind site) := by
      rw [hcall]
      refine h.move hended rfl rfl rfl rfl rfl (Stage.text later hstate ?_ ?_ hleft ?_)
      · show [] ++ List.map received (s.out ++ []) = _
        rw [List.nil_append, List.append_nil, hlater, List.concat_eq_append, hx]
      · exact fun hmem => hls (by rw [hls']; exact List.mem_append_right _ hmem)
      · show m.auxdata.bind _ = _
        rw [haux, hmail]
    refine ⟨_, hkept, ?_, fun hnil => absurd hnil hlast⟩
    rw [hw, hls', List.length_append]
    omega

/-! ## Going on to the next group -/

theorem activeFrom_none {gs : List FetchNntpGroup} {i : ℕ} (h : activeFrom gs i = none) :
    (gs.drop i).findIdx? (fun g => !g.ignore) = none := Option.map_eq_none_iff.mp h

theorem Going.keeps_switch (h : Going site total s g [] w) (hended : s.ended = none)
    (hstate : s.fctx.state = .switch) (hstream : s.stream = []) (hw : w = 2) :
    Keeps conf site total s (w + s.behind site) := by
  obtain ⟨hin, hout⟩ := stream_nil hstream
  have htotal := h.total
  rw [articles, List.map_nil, List.nil_append] at htotal
  cases hnext : activeFrom s.e.data.groups (s.e.data.group + 1) with
  | none =>
    have hread : state conf s.fctx s.e = writeline .quit .quit s.fctx
        { s.e with data := { s.e.data with group := s.e.data.groups.length } } := by
      rw [state, hstate]
      dsimp only
      rw [stateSwitch, hnext]
    have hcall := call_goes site [.quit] hread (Or.inr rfl) rfl
    rw [walkAll_ignored site (activeFrom_none hnext), List.append_nil] at htotal
    have hkept : Course site total (s.call conf site) 1 := by
      rw [hcall, answers_singleton]
      exact .quitting hended rfl (stream_answer [reply 205 site.note] hin rfl hout) htotal
    exact Keeps.of_lt hkept (by omega)
  | some k =>
    obtain ⟨-, g', hg', hactive⟩ := activeFrom_eq_some hnext
    obtain ⟨hwalk, hcost⟩ := walkAll_active site hnext hg' hactive
    have hread : state conf s.fctx s.e = (.again, { s.fctx with state := .group },
        { s.e with data := { s.e.data with group := k } }) := by
      rw [state, hstate]
      dsimp only
      rw [stateSwitch, hnext]
    have hcall := call_goes site [] hread (Or.inl rfl) (List.append_nil _).symm
    have hkept : Course site total (s.call conf site)
        (todo site g' + site.costAll (s.e.data.groups.drop (k + 1))) := by
      rw [hcall]
      refine .going (g := g') hended ⟨h.fault, hg', hactive, h.known, Newsgroup.walk_suffix _ _ _,
        .group rfl (stream_answer [] hin rfl hout), ?_⟩
      rw [hwalk] at htotal
      exact htotal
    refine Keeps.of_lt hkept ?_
    have htodo := todo_le site g'
    rw [Session.behind, hcost, hw]
    omega

theorem keeps_quit (hended : s.ended = none) (hstate : s.fctx.state = .quit)
    (hstream : s.stream = [received (reply 205 site.note)]) (htotal : s.fetched = total) :
    Keeps conf site total s 1 := by
  refine keeps_reply (.quitting hended hstate hstream htotal) hstream (fun hin => ?_)
    fun hin _ => ?_
  · rw [state, hstate]
    dsimp only
    rw [stateQuit, check, checkElse_nil hin]
  · have hread : state conf s.fctx s.e = (.exit, s.fctx, abort { s.e with inbuf := [] }) := by
      rw [state, hstate]
      dsimp only
      rw [stateQuit, check, checkElse_reply (by decide) (by decide) (by decide) hin]
    have hkept : Course site total (s.call conf site) 0 := by
      rw [Session.call, hread]
      exact .ended rfl htotal
    exact ⟨0, hkept, by omega⟩

/-! ## Whole sessions -/

variable (conf) in
/-- A call of the fetch function keeps the state of the session. -/
theorem keeps_call (h : Course site total s w) (hended : s.ended = none) :
    Keeps conf site total s w := by
  cases h with
  | quitting hended hstate hstream htotal => exact keeps_quit hended hstate hstream htotal
  | ended hexit _ =>
    rw [hended] at hexit
    cases hexit
  | going _ h =>
    cases h.stage with
    | connected hstate hstream => exact h.keeps_connected hended hstate hstream rfl
    | auth1 hstate hstream => exact h.keeps_auth1 hended hstate hstream rfl
    | auth2 hstate hstream => exact h.keeps_auth2 hended hstate hstream rfl
    | group hstate hstream => exact h.keeps_group hended hstate hstream rfl
    | stat hstate hstream hserving => exact h.keeps_stat hended hstate hstream hserving rfl
    | absent hstate hstream hleft => exact h.keeps_absent hended hstate hstream hleft rfl
    | present hstate hn hid hsuffix hstream hleft =>
      exact h.keeps_present hended hstate hn hid hsuffix hstream hleft rfl
    | reset hstate hstream => exact h.keeps_reset hended hstate hstream rfl
    | last hstate hcode hstream => exact h.keeps_last hended hstate hcode hstream rfl
    | next hstate hstream hleft => exact h.keeps_next hended hstate hstream hleft rfl
    | article hstate hstream hleft hseen =>
      exact h.keeps_article hended hstate hstream hleft hseen rfl
    | line hstate hstream hls hleft hmail =>
      exact h.keeps_line hended hstate hstream hls hleft hmail rfl
    | switch hstate hstream => exact h.keeps_switch hended hstate hstream rfl

theorem stream_arrive (s : Session) (n : ℕ) : (s.arrive n).stream = s.stream := by
  show s.e.inbuf ++ (s.out.take n).map received ++ (s.out.drop n).map received = _
  rw [List.append_assoc, ← List.map_append, List.take_append_drop, Session.stream]

/-- Lines that arrive change nothing. -/
theorem Course.arrive (h : Course site total s w) (n : ℕ) : Course site total (s.arrive n) w := by
  have hstream' : ∀ {l}, s.stream = l → (s.arrive n).stream = l := fun h => (stream_arrive s n).trans h
  cases h with
  | quitting hended hstate hstream htotal => exact .quitting hended hstate (hstream' hstream) htotal
  | ended hexit htotal => exact .ended hexit htotal
  | going hended h =>
    refine h.move hended rfl rfl rfl rfl rfl ?_
    cases h.stage with
    | connected hstate hstream => exact .connected hstate (hstream' hstream)
    | auth1 hstate hstream => exact .auth1 hstate (hstream' hstream)
    | auth2 hstate hstream => exact .auth2 hstate (hstream' hstream)
    | group hstate hstream => exact .group hstate (hstream' hstream)
    | stat hstate hstream hserving => exact .stat hstate (hstream' hstream) hserving
    | absent hstate hstream hleft => exact .absent hstate (hstream' hstream) hleft
    | present hstate hn hid hsuffix hstream hleft =>
      exact .present hstate hn hid hsuffix (hstream' hstream) hleft
    | reset hstate hstream => exact .reset hstate (hstream' hstream)
    | last hstate hcode hstream => exact .last hstate hcode (hstream' hstream)
    | next hstate hstream hleft => exact .next hstate (hstream' hstream) hleft
    | article hstate hstream hleft hseen => exact .article hstate (hstream' hstream) hleft hseen
    | line hstate hstream hls hleft hmail => exact .line hstate (hstream' hstream) hls hleft hmail
    | switch hstate hstream => exact .switch hstate (hstream' hstream)

variable (conf) in
theorem Course.turn (h : Course site total s w) (hended : s.ended = none) (n : ℕ) :
    ∃ t, s.turn conf site n = some t ∧
      ∃ v, Course site total t v ∧ v ≤ w ∧ (s.out.length ≤ n → v < w) := by
  refine ⟨(s.arrive n).call conf site, ?_, ?_⟩
  · rw [Session.turn, hended]
    rfl
  · obtain ⟨v, hv, hle, hlt⟩ := keeps_call conf (h.arrive n) hended
    exact ⟨v, hv, hle, fun hn => hlt (List.drop_eq_nil_of_le hn)⟩

/-- The state of the session is kept by every turn. -/
theorem course_of_run (h : ∃ w, Course site total s w) {ns : List ℕ}
    (hrun : exec (Session.turn conf site) s ns = some t) : ∃ w, Course site total t w := by
  refine (reach_of_exec hrun).invariant (I := fun s => ∃ w, Course site total s w) h
    fun s n s' hs _ hstep => ?_
  obtain ⟨w, hw⟩ := hs
  cases hended : s.ended with
  | some code =>
    rw [Session.turn, hended] at hstep
    cases hstep
  | none =>
    obtain ⟨t, ht, v, hv, -⟩ := hw.turn conf hended n
    rw [hstep, Option.some.injEq] at ht
    exact ⟨v, ht ▸ hv⟩

/-- Every session can be finished: it is enough that all lines arrive. -/
theorem reaches_exit (h : Course site total s w) :
    ∃ ns t, exec (Session.turn conf site) s ns = some t ∧ t.ended = some .exit := by
  induction w using Nat.strong_induction_on generalizing s with
  | _ w ih =>
    cases hended : s.ended with
    | some code =>
      refine ⟨[], s, rfl, ?_⟩
      cases h with
      | going hnone _ => rw [hended] at hnone; cases hnone
      | quitting hnone _ _ _ => rw [hended] at hnone; cases hnone
      | ended hexit _ => exact hexit
    | none =>
      obtain ⟨t, ht, v, hv, -, hlt⟩ := h.turn conf hended s.out.length
      obtain ⟨ns, t', hrun, hexit⟩ := ih v (hlt (Nat.le_refl _)) hv
      refine ⟨s.out.length :: ns, t', ?_, hexit⟩
      rw [exec, ht]
      exact hrun

/-- A group with a last article has its id. -/
theorem known_of_loadEntries {fuel : ℕ} {file : List Char} {gs gs' : List FetchNntpGroup}
    (h : loadEntries fuel file gs = some gs') (hgs : ∀ x ∈ gs, x.last ≠ 0 → x.id ≠ none) :
    ∀ x ∈ gs', x.last ≠ 0 → x.id ≠ none := by
  induction fuel generalizing file gs with
  | zero => cases h
  | succ fuel ih =>
    rcases loadEntries_cases h with rfl | ⟨name, last, id, rest, -, -, -, hload⟩
    · exact hgs
    · refine ih hload fun x hx hlast => ?_
      rcases id_of_mem_fillGroup hx with hx | hid
      · exact hgs x hx hlast
      · rw [hid]
        exact Option.some_ne_none _

theorem known_of_load {names : List (List Char)} {disk : Option (List Char)}
    {gs : List FetchNntpGroup} (h : load names disk = some gs) :
    ∀ x ∈ gs, x.last ≠ 0 → x.id ≠ none := by
  have hfresh : ∀ x ∈ configured names, x.last ≠ 0 → x.id ≠ none := by
    intro x hx hlast
    obtain ⟨name, -, rfl⟩ := List.mem_map.mp hx
    exact absurd rfl hlast
  cases disk with
  | none =>
    obtain rfl : configured names = gs := Option.some.inj h
    exact hfresh
  | some file => exact known_of_loadEntries h hfresh

/-- The session that begins. -/
theorem course_connect {e : Env} (h : Session.connect site e = some s) :
    ∃ w, Course site (site.walkAll 0 s.e.data.groups) s w := by
  unfold Session.connect stateConnect at h
  by_cases hfault : e.fault = true
  · rw [if_pos hfault] at h
    cases h
  · rw [if_neg hfault] at h
    cases hload : load e.data.names e.disk with
    | none => rw [hload] at h; cases h
    | some gs =>
      rw [hload] at h
      have hknown := known_of_load hload
      cases gs with
      | nil => cases h
      | cons g gs =>
        dsimp only at h
        cases hnext : activeFrom (g :: gs) 0 with
        | none => rw [hnext] at h; cases h
        | some k =>
          rw [hnext] at h
          obtain ⟨-, x, hx, hactive⟩ := activeFrom_eq_some hnext
          obtain ⟨hwalk, -⟩ := walkAll_active site hnext hx hactive
          obtain rfl := Option.some.inj h
          refine ⟨_, .going (g := x) (w := 12 + Site.cost (site.walk x)) rfl
            ⟨by simpa using hfault, hx, hactive, hknown, Newsgroup.walk_suffix _ _ _,
              .connected rfl rfl, ?_⟩⟩
          exact hwalk.symm

end Call

end Fdm.Nntp

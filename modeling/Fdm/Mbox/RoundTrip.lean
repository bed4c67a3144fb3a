import Fdm.Mbox.Passes

/-!
# From the deliveries to the fetch

* `round_trip_iff`: when the mails that were delivered to an mbox come back from it;
* `quoted_start_lost`: a mail that does not.
-/

namespace Fdm.Mbox

open Fdm.Fetch Lib.Lines

/-! ## Results, mail by mail -/

/-- The text of a mail behind another one. The fetch takes a `From ` line at the start of a
mail for the start of the next one. -/
def laterText (max : ℕ) (data : List Char) : List Char :=
  if Mail.fromPrefix <+: data then [] else handed max (quoteLines (lines (completed data)))

/-- What a fetch hands out of mails behind another one. -/
def laterResult (conf : Conf) : List (List Char) → Option (List (List Char))
  | [] => some []
  | data :: rest => after conf (laterText conf.maxSize data) (laterResult conf rest)

/-- The text of the first mail behind the `From ` line it starts with. -/
def secondText (max : ℕ) (data : List Char) : List Char :=
  let ls := (lines (completed data)).tail.map quote
  if ls = [] then ['\n'] else handed max ls

/-- What a fetch hands out of all mails; `f` is the `From ` line of the first one. -/
def firstResult (conf : Conf) (f data : List Char) (rest : List (List Char)) :
    Option (List (List Char)) :=
  if Mail.fromPrefix <+: data then
    after conf (f ++ ['\n']) (after conf (secondText conf.maxSize data) (laterResult conf rest))
  else
    after conf (handed conf.maxSize ((f ++ ['\n']) :: quoteLines (lines (completed data))))
      (laterResult conf rest)

/-! ## The bytes of an entry -/

theorem deliver_eq {d : Delivery} {entry : List Char} (h : deliver d.user d.ctime d.mail = some entry) :
    ∃ f, d.fromLine = some f ∧ entry = f ++ '\n' :: body d.data := by
  rw [deliver, Option.map_eq_some_iff] at h
  obtain ⟨f, hf, rfl⟩ := h
  refine ⟨f, hf, ?_⟩
  rw [List.append_assoc, List.append_assoc, List.singleton_append]
  rfl

theorem deliverAll_cons {d : Delivery} {ds : List Delivery} {bytes : List Char}
    (h : deliverAll (d :: ds) = some bytes) :
    ∃ f rest, d.fromLine = some f ∧ deliverAll ds = some rest ∧
      bytes = f ++ '\n' :: (body d.data ++ rest) := by
  rw [deliverAll, Option.bind_eq_some_iff] at h
  obtain ⟨entry, hentry, h⟩ := h
  rw [Option.map_eq_some_iff] at h
  obtain ⟨rest, hrest, rfl⟩ := h
  obtain ⟨f, hf, rfl⟩ := deliver_eq hentry
  refine ⟨f, rest, hf, hrest, ?_⟩
  rw [List.append_assoc, List.cons_append]

section FromLine

variable {d : Delivery} {f : List Char}

theorem fromLine_clean (hproper : d.Proper) (hf : d.fromLine = some f) : '\n' ∉ f :=
  Mail.makeFrom_clean hproper.user hproper.ctime hf

theorem fromLine_starts (hf : d.fromLine = some f) : Mail.fromPrefix <+: f :=
  Mail.makeFrom_starts hf

theorem fromLine_long (hf : d.fromLine = some f) : 6 ≤ f.length := by
  rw [Delivery.fromLine, Mail.makeFrom, Option.map_eq_some_iff] at hf
  obtain ⟨name, -, rfl⟩ := hf
  simp [Mail.fromPrefix]
  omega

theorem isFrom_fromLine (hproper : d.Proper) (hf : d.fromLine = some f) : IsFrom (f ++ ['\n']) := by
  rw [IsFrom, chomp_line (fromLine_clean hproper hf)]
  exact fromLine_starts hf

end FromLine

/-! ## The lines of an entry -/

theorem quiet_quoted {ls : List (List Char)} (h : ∀ l ∈ ls, Complete l) :
    ∀ l ∈ ls.map quote ++ [['\n']], ¬ IsFrom l := by
  intro l hl
  rcases List.mem_append.mp hl with hl | hl
  · obtain ⟨x, hx, rfl⟩ := List.mem_map.mp hl
    exact not_isFrom_quote (h x hx)
  · rw [List.mem_singleton.mp hl]
    exact not_isFrom_newline

/-- The lines of a mail: the first one, and the rest of them quoted. -/
theorem bodyLines_cons (data : List Char) :
    ∃ l ls, lines (completed data) = l :: ls ∧ Complete l ∧ (∀ x ∈ ls, Complete x) ∧
      bodyLines data = l :: (ls.map quote ++ [['\n']]) ∧
      (IsFrom l ↔ Mail.fromPrefix <+: data) := by
  obtain ⟨l, ls, hls⟩ := List.exists_cons_of_ne_nil (lines_ne_nil (completed_ne_nil data))
  have hcomplete := complete_completed data
  rw [hls] at hcomplete
  refine ⟨l, ls, hls, hcomplete l List.mem_cons_self,
    fun x hx => hcomplete x (List.mem_cons_of_mem l hx), ?_, ?_⟩
  · rw [bodyLines, hls]
    rfl
  · rw [← fromPrefix_iff hls, completed]
    by_cases h : data.getLast? = some '\n'
    · rw [if_pos h]
    · rw [if_neg h, fromPrefix_append_newline]

theorem quiet_bodyLines {data : List Char} (h : ¬ Mail.fromPrefix <+: data) :
    ∀ l ∈ bodyLines data, ¬ IsFrom l := by
  obtain ⟨l, ls, -, -, hcomplete, hbody, hfrom⟩ := bodyLines_cons data
  rw [hbody]
  intro x hx
  rcases List.mem_cons.mp hx with rfl | hx
  · exact mt hfrom.mp h
  · exact quiet_quoted hcomplete x hx

/-- Complete lines with a blank one behind them. -/
theorem ends_blank {ls : List (List Char)} (hne : ls ≠ []) (h : ∀ l ∈ ls, Complete l) :
    ∃ u, (ls ++ [['\n']]).flatten = u ++ ['\n', '\n'] := by
  obtain ⟨ls, l, rfl⟩ := (List.eq_nil_or_concat ls).resolve_left hne
  obtain ⟨b, -, rfl⟩ := h l (by simp)
  exact ⟨ls.flatten ++ b, by simp⟩

theorem lines_ne_nil_completed (data : List Char) : quoteLines (lines (completed data)) ≠ [] := by
  obtain ⟨l, ls, hls, -⟩ := bodyLines_cons data
  rw [hls]
  exact nofun

/-- In front of the mails that are left stands a `From ` line, or the end of the file. -/
theorem head_rest {ds : List Delivery} {rest : List Char} (hproper : ∀ d ∈ ds, d.Proper)
    (h : deliverAll ds = some rest) {l : List Char} {tail : List (List Char)}
    (hl : lines rest = l :: tail) : IsFrom l := by
  cases ds with
  | nil =>
    rw [← Option.some_inj.mp h] at hl
    cases hl
  | cons d ds =>
    obtain ⟨f, rest', hf, -, rfl⟩ := deliverAll_cons h
    have hd := hproper d List.mem_cons_self
    rw [lines_append_newline (fromLine_clean hd hf)] at hl
    rw [← (List.cons.inj hl).1]
    exact isFrom_fromLine hd hf

/-! ## The fetch -/

section Fetched

variable {conf : Conf} {rules : List Char → Decision} {path base : List Char}
  {l : Loop Env State FetchMboxMail}

/-- The rest of a file from an offset on. -/
theorem drop_rest {off : ℕ} {s t : List Char} (h : base.drop off = s ++ t) :
    base.drop (off + s.length) = t := by
  rw [← List.drop_drop, h, List.drop_left]

theorem off_eq_length {off : ℕ} (hoff : off ≤ base.length) {s : List Char} (h : base.drop off = s) :
    off + s.length = base.length := by
  rw [← h, List.length_drop]
  omega

/-- The mails that are left are read as they should be, wherever they stand in the file but at
its start. -/
def Later (conf : Conf) (rules : List Char → Decision) (path base : List Char)
    (ds : List Delivery) : Prop :=
  ∀ d ds' rest off l, ds = d :: ds' → deliverAll ds' = some rest → off ≠ 0 →
    off ≤ base.length → base.drop off = body d.data ++ rest → Reading path base off l →
    Yields conf rules l (laterResult conf (ds.map Delivery.data))

/-- Lines of a mail at an offset, in front of the mails that are left. -/
theorem yields_lines (hhigh : 0 < conf.queueHigh) {off : ℕ} (hread : Reading path base off l)
    (hoff : off ≤ base.length) {ls : List (List Char)} (hne : ls ≠ [])
    (hcomplete : ∀ x ∈ ls, Complete x) (hquiet : Quiet (decide (off = 0)) ls)
    {ds : List Delivery} {rest : List Char} (hproper : ∀ d ∈ ds, d.Proper)
    (hrest : deliverAll ds = some rest) (hbase : base.drop off = ls.flatten ++ rest)
    (hlater : Later conf rules path base ds) {text : List Char}
    (hblank : (∃ u, ls.flatten = u ++ ['\n', '\n']) →
      (keepLines conf.maxSize ls []).take ((keepLines conf.maxSize ls []).length - 2) = text)
    (hplain : ¬ (∃ u, ls.flatten = u ++ ['\n', '\n']) → keepLines conf.maxSize ls [] = text) :
    Yields conf rules l (after conf text (laterResult conf (ds.map Delivery.data))) := by
  have hlines : lines (base.drop off) = ls ++ lines rest := by
    have hruled : Ruled (ls ++ lines rest) := Ruled.complete_append hcomplete (ruled_lines rest)
    rw [hbase, ← hruled.lines_flatten, List.flatten_append, flatten_lines rest]
  have hlen : 0 < ls.flatten.length := by
    obtain ⟨x, xs, rfl⟩ := List.exists_cons_of_ne_nil hne
    obtain ⟨b, -, rfl⟩ := hcomplete x List.mem_cons_self
    rw [List.flatten_cons, List.length_append, List.length_append, List.length_singleton]
    omega
  have hend : off ≠ base.length := by
    intro h
    rw [h, List.drop_length] at hbase
    have hzero := congrArg List.length hbase
    rw [List.length_nil, List.length_append] at hzero
    omega
  obtain ⟨hfmbox, hnext, hcut, hwhole⟩ := scanMail_quiet conf.maxSize hlines hquiet
    (fun x tail hx => ⟨head_rest hproper hrest hx, by omega⟩) 0
  refine yields_mail hhigh hread hend hfmbox hnext ?_ ?_
  · by_cases h : ∃ u, ls.flatten = u ++ ['\n', '\n']
    · exact (hcut h).trans (hblank h)
    · exact (hwhole h).trans (hplain h)
  · intro _ l' hread'
    have hdrop := drop_rest hbase
    have hall := off_eq_length hoff hbase
    rw [List.length_append] at hall
    cases ds with
    | nil =>
      obtain rfl : [] = rest := Option.some_inj.mp hrest
      have hstop : off + ls.flatten.length + ((lines []).headD []).length = base.length := by
        rw [← hall]
        rfl
      rw [hstop] at hread'
      exact yields_end hhigh hread'
    | cons d ds =>
      obtain ⟨f, rest', hf, hrest', rfl⟩ := deliverAll_cons hrest
      have hclean := fromLine_clean (hproper d List.mem_cons_self) hf
      have hhead : ((lines (f ++ '\n' :: (body d.data ++ rest'))).headD []) = f ++ ['\n'] := by
        rw [lines_append_newline hclean]
        rfl
      rw [hhead] at hread'
      have hsplit : f ++ '\n' :: (body d.data ++ rest') = (f ++ ['\n']) ++ (body d.data ++ rest') := by
        simp
      rw [hsplit] at hdrop hall
      rw [List.length_append] at hall
      exact hlater d ds rest' _ l' rfl hrest' (by omega) (by omega) (drop_rest hdrop) hread'

/-- Lines with a blank one behind them. -/
theorem yields_blank (hhigh : 0 < conf.queueHigh) {off : ℕ} (hread : Reading path base off l)
    (hoff : off ≤ base.length) {ls : List (List Char)} (hne : ls ≠ [])
    (hcomplete : ∀ x ∈ ls, Complete x) (hquiet : Quiet (decide (off = 0)) (ls ++ [['\n']]))
    {ds : List Delivery} {rest : List Char} (hproper : ∀ d ∈ ds, d.Proper)
    (hrest : deliverAll ds = some rest)
    (hbase : base.drop off = (ls ++ [['\n']]).flatten ++ rest)
    (hlater : Later conf rules path base ds) :
    Yields conf rules l
      (after conf (handed conf.maxSize ls) (laterResult conf (ds.map Delivery.data))) := by
  have hall : ∀ x ∈ ls ++ [['\n']], Complete x := by
    intro x hx
    rcases List.mem_append.mp hx with hx | hx
    · exact hcomplete x hx
    · rw [List.mem_singleton.mp hx]
      exact complete_newline
  exact yields_lines hhigh hread hoff (by simp) hall hquiet hproper hrest hbase hlater
    (fun _ => rfl) fun h => absurd (ends_blank hne hcomplete) h

/-- One mail behind another one. -/
theorem later_step (hhigh : 0 < conf.queueHigh) {d : Delivery} {ds : List Delivery}
    (hproper : ∀ x ∈ ds, x.Proper) {rest : List Char} (hrest : deliverAll ds = some rest) {off : ℕ}
    (hpos : off ≠ 0) (hoff : off ≤ base.length) (hbase : base.drop off = body d.data ++ rest)
    (hread : Reading path base off l) (hlater : Later conf rules path base ds) :
    Yields conf rules l (laterResult conf ((d :: ds).map Delivery.data)) := by
  rw [List.map_cons, laterResult, laterText]
  by_cases hfrom : Mail.fromPrefix <+: d.data
  · -- the first line of the mail is taken for the start of the next one
    rw [if_pos hfrom]
    obtain ⟨x, xs, hxs, hx, hcomplete, hbody, hiff⟩ := bodyLines_cons d.data
    have hlines : lines (base.drop off) = [] ++ (x :: (xs.map quote ++ [['\n']]) ++ lines rest) := by
      rw [hbase, lines_body, hbody, List.nil_append]
    obtain ⟨hfmbox, hnext, -, hplain⟩ := scanMail_quiet conf.maxSize hlines trivial
      (fun y tail hy => by
        obtain ⟨rfl, -⟩ := List.cons.inj hy
        exact ⟨hiff.mpr hfrom, by omega⟩) 0
    have hend : off ≠ base.length := by
      intro h
      rw [h, List.drop_length] at hlines
      cases hlines
    have hempty : enqueued conf [] = .refused := by
      rw [enqueued, if_neg (by simp), if_pos (by decide)]
    exact yields_mail hhigh hread hend hfmbox hnext (hplain (by simp)) fun hne => absurd hempty hne
  · rw [if_neg hfrom]
    refine yields_blank hhigh hread hoff (lines_ne_nil_completed d.data)
      (complete_quoteLines (complete_completed d.data)) ?_ hproper hrest ?_ hlater
    · rw [decide_eq_false hpos]
      exact quiet_of_forall (quiet_bodyLines hfrom)
    · rw [hbase, body_eq]

/-- The mails behind another one. -/
theorem yields_later (hhigh : 0 < conf.queueHigh) {ds : List Delivery}
    (hproper : ∀ x ∈ ds, x.Proper) : Later conf rules path base ds := by
  induction ds with
  | nil =>
    intro x ds' rest off l hcons
    cases hcons
  | cons d ds ih =>
    intro x ds' rest off l hcons hrest hpos hoff hbase hread
    obtain ⟨rfl, rfl⟩ := List.cons.inj hcons
    have hproper' : ∀ y ∈ ds, y.Proper := fun y hy => hproper y (List.mem_cons_of_mem _ hy)
    exact later_step hhigh hproper' hrest hpos hoff hbase hread (ih hproper')

/-- A first mail that starts with a `From ` line of its own. -/
theorem yields_first_from (hhigh : 0 < conf.queueHigh) {f data : List Char} {ds : List Delivery}
    (hclean : '\n' ∉ f) (hstarts : Mail.fromPrefix <+: f) (hfrom : Mail.fromPrefix <+: data)
    (hproper : ∀ x ∈ ds, x.Proper) {rest : List Char} (hrest : deliverAll ds = some rest)
    (hbase : base = f ++ '\n' :: (body data ++ rest)) (hread : Reading path base 0 l) :
    Yields conf rules l
      (after conf (f ++ ['\n'])
        (after conf (secondText conf.maxSize data) (laterResult conf (ds.map Delivery.data)))) := by
  obtain ⟨x, xs, hxs, hx, hcomplete, hbody, hiff⟩ := bodyLines_cons data
  have hlines : lines (base.drop 0)
      = [f ++ ['\n']] ++ (x :: (xs.map quote ++ [['\n']]) ++ lines rest) := by
    rw [List.drop_zero, hbase, lines_append_newline hclean, lines_body, hbody,
      List.singleton_append]
  have hbytes : base.drop 0
      = f ++ ['\n'] ++ x ++ ((xs.map quote ++ [['\n']]).flatten ++ rest) := by
    rw [← flatten_lines (base.drop 0), hlines]
    simp [flatten_lines]
  have hquiet : Quiet (decide (0 = 0)) [f ++ ['\n']] := ⟨fun h => by simp at h, by simp⟩
  have hline : [f ++ ['\n']].flatten.length = (f ++ ['\n']).length := by
    rw [List.flatten_singleton]
  have hpos : 0 < (f ++ ['\n']).length := by
    rw [List.length_append, List.length_singleton]
    omega
  have hall := off_eq_length (Nat.zero_le _) hbytes
  rw [List.length_append, List.length_append] at hall
  obtain ⟨hfmbox, hnext, -, hwhole⟩ := scanMail_quiet conf.maxSize hlines hquiet
    (fun y tail hy => by
      obtain ⟨rfl, -⟩ := List.cons.inj hy
      exact ⟨hiff.mpr hfrom, by omega⟩) 0
  have hnotblank : ¬ ∃ u, [f ++ ['\n']].flatten = u ++ ['\n', '\n'] := by
    rintro ⟨u, hu⟩
    have hlast : f ++ ['\n'] = (u ++ ['\n']) ++ ['\n'] := by
      rw [List.flatten_singleton] at hu
      simpa using hu
    rw [List.append_cancel_right hlast] at hclean
    simp at hclean
  have hkeep : keepLines conf.maxSize [f ++ ['\n']] [] = f ++ ['\n'] := by
    rw [keepLines, if_neg (by simp), unquote_fromLine hclean hstarts]
    rfl
  rw [hline] at hnext
  refine yields_mail hhigh hread (by omega) hfmbox hnext ((hwhole hnotblank).trans hkeep) ?_
  intro _ l' hread'
  have hdrop := drop_rest hbytes
  rw [List.length_append] at hdrop
  rw [← Nat.add_assoc] at hdrop
  have hoff : 0 + (f ++ ['\n']).length + x.length ≠ 0 := by omega
  -- the rest of the mail is taken for a mail of its own
  have hquiet' : Quiet (decide (0 + (f ++ ['\n']).length + x.length = 0)) (xs.map quote ++ [['\n']]) :=
    quiet_of_forall (quiet_quoted hcomplete)
  have hlater : Later conf rules path base ds := yields_later hhigh hproper
  have hle : 0 + (f ++ ['\n']).length + x.length ≤ base.length := by omega
  by_cases hnil : xs = []
  · subst hnil
    have hsecond : secondText conf.maxSize data = ['\n'] := by
      rw [secondText, hxs]
      rfl
    rw [hsecond]
    refine yields_lines hhigh hread' hle (by simp) ?_ hquiet' hproper hrest hdrop hlater ?_ ?_
    · intro y hy
      rw [List.mem_singleton.mp hy]
      exact complete_newline
    · rintro ⟨u, hu⟩
      have hlen := congrArg List.length hu
      simp at hlen
    · intro _
      show keepLines conf.maxSize [['\n']] [] = ['\n']
      rw [keepLines, if_neg (by simp)]
      rfl
  · have hne : xs.map quote ≠ [] := by simpa using hnil
    have hsecond : secondText conf.maxSize data = handed conf.maxSize (xs.map quote) := by
      rw [secondText, hxs]
      exact if_neg hne
    rw [hsecond]
    refine yields_blank hhigh hread' hle hne ?_ hquiet' hproper hrest hdrop hlater
    intro y hy
    obtain ⟨z, hz, rfl⟩ := List.mem_map.mp hy
    exact complete_quote (hcomplete z hz)

/-- The first mail, and the others behind it. -/
theorem yields_first (hhigh : 0 < conf.queueHigh) {f data : List Char} {ds : List Delivery}
    (hclean : '\n' ∉ f) (hstarts : Mail.fromPrefix <+: f) (hproper : ∀ x ∈ ds, x.Proper)
    {rest : List Char} (hrest : deliverAll ds = some rest)
    (hbase : base = f ++ '\n' :: (body data ++ rest)) (hread : Reading path base 0 l) :
    Yields conf rules l (firstResult conf f data (ds.map Delivery.data)) := by
  rw [firstResult]
  by_cases hfrom : Mail.fromPrefix <+: data
  · rw [if_pos hfrom]
    exact yields_first_from hhigh hclean hstarts hfrom hproper hrest hbase hread
  · rw [if_neg hfrom]
    refine yields_blank hhigh hread (Nat.zero_le _) (by simp) ?_ ?_ hproper hrest ?_
      (yields_later hhigh hproper)
    · intro x hx
      rcases List.mem_cons.mp hx with rfl | hx
      · exact ⟨f, hclean, rfl⟩
      · exact complete_quoteLines (complete_completed data) x hx
    · exact ⟨fun h => by simp at h, quiet_bodyLines hfrom⟩
    · rw [List.drop_zero, hbase, body_eq]
      simp

/-- The fetcher is about to open the mbox. -/
theorem yields_open (hhigh : 0 < conf.queueHigh) (hat : At .open 0 path [] l)
    (hfile : l.data.files path = some base) {r : Option (List (List Char))}
    (hnone : base = [] → r = some [])
    (hfrom : base ≠ [] → Mail.fromPrefix <+: base)
    (hread : base ≠ [] → ∀ l', Reading path base 0 l' → Yields conf rules l' r) :
    Yields conf rules l r := by
  refine yields_pass hat.aborted hat.queue hat.complete ?_
  rw [pass_eq hhigh hat.queue hat.complete]
  have hagree := agree_prepared conf l
  have hp := hat.agree hagree
  rw [← hagree.data] at hfile
  generalize prepared conf l = p at hp hfile
  obtain ⟨total, hmbox⟩ := hp.healthy.mbox
  have hfault := hp.healthy.fault
  by_cases hbase : base = []
  · have hstate : (fetcher conf).state p.fctx p.data
        = (.again, { p.fctx with state := .next }, p.data) := by
      show state conf _ _ = _
      rw [state, hp.state]
      dsimp only
      rw [stateOpen, hmbox, hp.index]
      dsimp only [List.getElem?_cons_zero]
      rw [hfile]
      simp [hfault, hbase]
    rw [Loop.call, hstate, hnone hbase]
    exact yields_next hhigh
      ⟨hp.aborted, hp.complete, hp.queue, rfl, hp.mail, hp.index, hp.healthy⟩
  · have hlen : ¬ base.length < 5 := by
      have hle := (hfrom hbase).length_le
      exact Nat.not_lt.mpr hle
    have hstate : (fetcher conf).state p.fctx p.data
        = (.again, { p.fctx with state := .mail },
          setFmbox 0 ⟨path, p.data.data.kept.length, total, base⟩
            { p.data with data := { p.data.data with off := 0 } }) := by
      show state conf _ _ = _
      rw [state, hp.state]
      dsimp only
      rw [stateOpen, hmbox, hp.index]
      dsimp only [List.getElem?_cons_zero]
      rw [hfile]
      dsimp only
      rw [if_neg (by simp [hfault]), if_neg hbase, if_neg hlen, if_neg (not_not.mpr (hfrom hbase)),
        hmbox, hp.index]
    rw [Loop.call, hstate]
    refine hread hbase _ ⟨⟨hp.aborted, hp.complete, hp.queue, rfl, hp.mail, hp.index,
      hfault, ⟨total, ?_⟩, hp.healthy.kept⟩, rfl⟩
    show p.data.data.fmboxes.set 0 _ = _
    rw [hmbox]
    rfl

/-- A fetch from its start on. -/
theorem yields_begin (hhigh : 0 < conf.queueHigh) {r : Option (List (List Char))}
    (hnone : base = [] → r = some [])
    (hfrom : base ≠ [] → Mail.fromPrefix <+: base)
    (hread : base ≠ [] → ∀ l', Reading path base 0 l' → Yields conf rules l' r) :
    Yields conf rules (begin conf false [path] fun p => if p = path then some base else none) r := by
  refine yields_pass rfl rfl rfl ?_
  rw [pass_eq hhigh rfl rfl]
  have hagree := agree_prepared conf
    (begin conf false [path] fun p => if p = path then some base else none)
  generalize prepared conf (begin conf false [path] fun p => if p = path then some base else none) = p
    at hagree
  have hstate : (fetcher conf).state p.fctx p.data
      = (.again, { p.fctx with state := .open },
        { p.data with data := { p.data.data with
            fmboxes := [⟨path, 0, 0, []⟩], index := 0, kept := [] } }) := by
    show state conf _ _ = _
    rw [state, hagree.state, hagree.data]
    rfl
  rw [Loop.call, hstate]
  refine yields_open hhigh ?_ ?_ hnone hfrom hread
  · have hfault : p.data.fault = false := by
      rw [hagree.data]
      rfl
    exact ⟨hagree.aborted, hagree.complete, hagree.queue, rfl, hagree.mail, rfl, hfault, ⟨0, rfl⟩,
      by simp⟩
  · show p.data.files path = some base
    rw [hagree.data]
    exact if_pos rfl

/-- What a fetch of the mails of an mbox ends in. -/
theorem yields_deliveries (hhigh : 0 < conf.queueHigh) {d : Delivery} {ds : List Delivery}
    (hproper : ∀ x ∈ d :: ds, x.Proper) {f rest : List Char} (hf : d.fromLine = some f)
    (hrest : deliverAll ds = some rest) (hbase : base = f ++ '\n' :: (body d.data ++ rest)) :
    Yields conf rules (begin conf false [path] fun p => if p = path then some base else none)
      (firstResult conf f d.data (ds.map Delivery.data)) := by
  have hclean := fromLine_clean (hproper d List.mem_cons_self) hf
  have hne : base ≠ [] := by
    rw [hbase]
    simp
  refine yields_begin hhigh (fun h => absurd h hne) (fun _ => ?_) fun _ l' hread => ?_
  · rw [hbase]
    exact (fromLine_starts hf).trans (List.prefix_append _ _)
  · exact yields_first hhigh hclean (fromLine_starts hf)
      (fun x hx => hproper x (List.mem_cons_of_mem d hx)) hrest hbase hread

end Fetched

/-! ## Which mails come back -/

section Results

variable {conf : Conf}

theorem after_eq_some {text : List Char} {r : Option (List (List Char))} {fs : List (List Char)}
    (h : after conf text r = some fs) :
    (enqueued conf text = .deleted ∧ r = some fs) ∨
      ∃ g gs, enqueued conf text = .queued g ∧ r = some gs ∧ fs = g :: gs := by
  rw [after] at h
  cases henq : enqueued conf text with
  | refused =>
    rw [henq] at h
    cases h
  | deleted =>
    rw [henq] at h
    exact Or.inl ⟨rfl, h⟩
  | queued g =>
    rw [henq] at h
    obtain ⟨gs, hgs, rfl⟩ := Option.map_eq_some_iff.mp h
    exact Or.inr ⟨g, gs, rfl, hgs, rfl⟩

/-- A mail that comes back from behind another one. -/
def LaterReturns (max : ℕ) (data : List Char) : Prop :=
  ¬ LooksQuoted data ∧ (completed data).length ≤ max ∧ (completed data).dropLast ≠ []

theorem laterResult_of_returns {datas : List (List Char)}
    (h : ∀ data ∈ datas, LaterReturns conf.maxSize data) :
    laterResult conf datas = some (datas.map fun data => (completed data).dropLast) := by
  induction datas with
  | nil => rfl
  | cons data rest ih =>
    obtain ⟨hlooks, hfits, hcontent⟩ := h data List.mem_cons_self
    rw [laterResult, laterText, if_neg (mt looksQuoted_of_from hlooks), after,
      later_returns hlooks hfits hcontent, ih fun x hx => h x (List.mem_cons_of_mem data hx)]
    rfl

theorem laterText_from {max : ℕ} {data : List Char} (h : Mail.fromPrefix <+: data) :
    laterText max data = [] := if_pos h

theorem enqueued_nil (conf : Conf) : enqueued conf [] = .refused := by
  rw [enqueued, if_neg (by simp), if_pos (by decide)]

/-- No more mails come back than there are, and when all of them do, each comes back. -/
theorem laterResult_same {datas fs : List (List Char)} (h : laterResult conf datas = some fs) :
    fs.length ≤ datas.length ∧
      (List.Forall₂ SameText fs datas → ∀ data ∈ datas, LaterReturns conf.maxSize data) := by
  induction datas generalizing fs with
  | nil =>
    obtain rfl : [] = fs := Option.some_inj.mp h
    exact ⟨Nat.le_refl _, by simp⟩
  | cons data rest ih =>
    rw [laterResult] at h
    rcases after_eq_some h with ⟨-, hrest⟩ | ⟨g, gs, hqueued, hrest, rfl⟩
    · have hle := (ih hrest).1
      refine ⟨Nat.le_succ_of_le hle, fun hsame => ?_⟩
      have hlen := hsame.length_eq
      rw [List.length_cons] at hlen
      omega
    · obtain ⟨hle, hreturn⟩ := ih hrest
      refine ⟨Nat.succ_le_succ hle, fun hsame => ?_⟩
      obtain ⟨hg, hgs⟩ := List.forall₂_cons.mp hsame
      have hfrom : ¬ Mail.fromPrefix <+: data := by
        intro hfrom
        rw [laterText_from hfrom, enqueued_nil] at hqueued
        cases hqueued
      rw [laterText, if_neg hfrom] at hqueued
      intro x hx
      rcases List.mem_cons.mp hx with rfl | hx
      · exact later_same hfrom hqueued hg
      · exact hreturn hgs x hx

/-- A mail of newlines alone does not make up for a newline too much. -/
theorem not_shifted {datas fs : List (List Char)} (hmax : 2 ≤ conf.maxSize)
    (hne : ∀ data ∈ datas, data ≠ []) (h : laterResult conf datas = some fs) :
    ¬ List.Forall₂ SameText (['\n'] :: fs) datas := by
  induction datas generalizing fs with
  | nil => exact fun hsame => nomatch hsame
  | cons data rest ih =>
    intro hsame
    obtain ⟨hdata, hfs⟩ := List.forall₂_cons.mp hsame
    have hcases : data = ['\n'] ∨ data = ['\n', '\n'] := by
      rcases hdata with heq | heq | heq
      · exact Or.inl heq.symm
      · exact Or.inr heq.symm
      · have hlen := congrArg List.length heq
        rw [List.length_append, List.length_singleton] at hlen
        have hnil : data = [] := List.length_eq_zero_iff.mp (by omega)
        exact absurd hnil (hne data List.mem_cons_self)
    rw [laterResult] at h
    rcases hcases with rfl | rfl
    · have htext : laterText conf.maxSize ['\n'] = [] := by
        rw [laterText, if_neg (by decide)]
        exact (handed_spec conf.maxSize [['\n']]).1 (Nat.le_trans (by decide) hmax)
      rw [htext, after, enqueued_nil] at h
      cases h
    · have htext : laterText conf.maxSize ['\n', '\n'] = ['\n'] := by
        rw [laterText, if_neg (by decide)]
        exact (handed_spec conf.maxSize [['\n'], ['\n']]).1 hmax
      have hqueued : enqueued conf ['\n'] = .queued ['\n'] :=
        enqueued_of_le (Nat.le_trans (by decide) hmax) (by decide)
      rw [htext, after, hqueued] at h
      obtain ⟨gs, hgs, rfl⟩ := Option.map_eq_some_iff.mp h
      exact ih (fun x hx => hne x (List.mem_cons_of_mem _ hx)) hgs hfs

/-- The first line of a mail, and what is read back of the others. -/
theorem secondText_short (max : ℕ) {data : List Char} (hfrom : Mail.fromPrefix <+: data) :
    (secondText max data).length + 2 ≤ (completed data).length := by
  obtain ⟨l, ls, hls, ⟨b, hb, rfl⟩, hcomplete, -, hiff⟩ := bodyLines_cons data
  have hlong : 5 ≤ b.length := by
    have hline := hiff.mpr hfrom
    rw [IsFrom, chomp_line hb] at hline
    exact hline.length_le
  have hflat := flatten_lines (completed data)
  rw [hls, List.flatten_cons] at hflat
  have hlen := congrArg List.length hflat
  rw [List.length_append, List.length_append, List.length_singleton] at hlen
  rw [secondText, hls, List.tail_cons]
  by_cases hnil : ls.map quote = []
  · rw [if_pos hnil, List.length_singleton]
    omega
  · rw [if_neg hnil]
    have hback : textOf (ls.map quote) = ls.flatten := textOf_map_quote hcomplete
    obtain ⟨hfit, hover⟩ := handed_spec max (ls.map quote)
    rw [hback] at hfit hover
    by_cases hsize : ls.flatten.length ≤ max
    · rw [hfit hsize, List.length_dropLast]
      omega
    · have hshort := (hover (by omega)).2
      omega

section First

variable {f data : List Char} {rest : List (List Char)} (hclean : '\n' ∉ f)
  (hstarts : Mail.fromPrefix <+: f)

/-- The first mail comes back. -/
def FirstReturns (max : ℕ) (f data : List Char) : Prop :=
  ¬ LooksQuoted data ∧ f.length + 1 + (completed data).length ≤ max ∧
    ['\n'] ∈ lines (completed data).dropLast

include hclean hstarts

theorem firstResult_of_returns (hdata : FirstReturns conf.maxSize f data)
    (hrest : ∀ x ∈ rest, LaterReturns conf.maxSize x) :
    firstResult conf f data rest = some ((data :: rest).map fun x => (completed x).dropLast) := by
  obtain ⟨hlooks, hfits, hseparator⟩ := hdata
  rw [firstResult, if_neg (mt looksQuoted_of_from hlooks), after,
    first_returns hclean hstarts hlooks hfits hseparator, laterResult_of_returns hrest]
  rfl

/-- The `From ` line alone. -/
theorem trimmed_alone : trimmed (f ++ ['\n']) = f ++ ['\n'] := by
  rw [trimmed_fromLine hstarts hclean, if_neg (by simp [lines])]

/-- A mail that starts with a `From ` line does not come back. -/
theorem from_lost (hlong : 6 ≤ f.length) (hfrom : Mail.fromPrefix <+: data)
    (hne : ∀ x ∈ rest, x ≠ []) {fs : List (List Char)}
    (h : firstResult conf f data rest = some fs) : ¬ List.Forall₂ SameText fs (data :: rest) := by
  intro hsame
  rw [firstResult, if_pos hfrom] at h
  have hshort := secondText_short conf.maxSize hfrom
  rcases after_eq_some h with ⟨-, h'⟩ | ⟨g, gs, hqueued, h', rfl⟩
  · -- the `From ` line was deleted, for its size; what follows is too short
    rcases after_eq_some h' with ⟨-, h''⟩ | ⟨g, gs, hqueued, -, rfl⟩
    · have hle := (laterResult_same h'').1
      have hlen := hsame.length_eq
      rw [List.length_cons] at hlen
      omega
    · obtain ⟨rfl, -⟩ := enqueued_queued hqueued
      have hle := (trimmed_suffix (secondText conf.maxSize data)).length_le
      exact not_sameText (by omega) (List.forall₂_cons.mp hsame).1
  · obtain ⟨hg, hgs⟩ := List.forall₂_cons.mp hsame
    have hmax : 2 ≤ conf.maxSize := by
      unfold enqueued at hqueued
      split_ifs at hqueued with hbig hdel hempty
      rw [List.length_append, List.length_singleton] at hbig
      omega
    obtain ⟨rfl, -⟩ := enqueued_queued hqueued
    rw [trimmed_alone hclean hstarts] at hg
    -- the mail is its own `From ` line, with an empty line behind it at most
    have hcompleted : completed data = f ++ ['\n'] ∨ completed data = f ++ ['\n'] ++ ['\n'] := by
      rcases hg with rfl | rfl | hg
      · left
        rw [completed, if_pos (by simp)]
      · right
        rw [completed, if_pos (by simp)]
      · left
        obtain rfl : f = data := List.append_cancel_right hg
        rw [completed, if_neg]
        intro hlast
        obtain ⟨s, rfl⟩ := List.getLast?_eq_some_iff.mp hlast
        simp at hclean
    rcases hcompleted with hcompleted | hcompleted
    · have hsecond : secondText conf.maxSize data = ['\n'] := by
        rw [secondText, hcompleted, lines_append_newline hclean]
        rfl
      have hnewline : enqueued conf ['\n'] = .queued ['\n'] :=
        enqueued_of_le (Nat.le_trans (by decide) hmax) (by decide)
      rw [hsecond, after, hnewline] at h'
      obtain ⟨gs', hgs', rfl⟩ := Option.map_eq_some_iff.mp h'
      exact not_shifted hmax hne hgs' hgs
    · have hsecond : secondText conf.maxSize data = [] := by
        rw [secondText, hcompleted, List.append_assoc, List.singleton_append,
          lines_append_newline hclean]
        exact (handed_spec conf.maxSize [['\n']]).1 (Nat.le_trans (by decide) hmax)
      rw [hsecond, after, enqueued_nil] at h'
      cases h'

theorem firstResult_same (hlong : 6 ≤ f.length) (hne : ∀ x ∈ rest, x ≠ []) {fs : List (List Char)}
    (h : firstResult conf f data rest = some fs) (hsame : List.Forall₂ SameText fs (data :: rest)) :
    FirstReturns conf.maxSize f data ∧ ∀ x ∈ rest, LaterReturns conf.maxSize x := by
  have hfrom : ¬ Mail.fromPrefix <+: data := fun hfrom =>
    from_lost hclean hstarts hlong hfrom hne h hsame
  rw [firstResult, if_neg hfrom] at h
  rcases after_eq_some h with ⟨-, hrest⟩ | ⟨g, gs, hqueued, hrest, rfl⟩
  · have hle := (laterResult_same hrest).1
    have hlen := hsame.length_eq
    rw [List.length_cons] at hlen
    omega
  · obtain ⟨hg, hgs⟩ := List.forall₂_cons.mp hsame
    exact ⟨first_same hclean hstarts hlong hfrom hqueued hg, (laterResult_same hrest).2 hgs⟩

end First

end Results

/-! ## The round trip -/

theorem returns_first {max : ℕ} {d : Delivery} {f : List Char} (hf : d.fromLine = some f) :
    Returns max true d ↔ FirstReturns max f d.data := by
  constructor
  · intro h
    exact ⟨h.start, h.fits f hf, h.separator rfl⟩
  · rintro ⟨hlooks, hfits, hseparator⟩
    refine ⟨by simp [hf], hlooks, fun f' hf' => ?_, fun _ => hseparator, nofun⟩
    obtain rfl : f = f' := Option.some_inj.mp (hf.symm.trans hf')
    exact hfits

theorem returns_later {max : ℕ} {d : Delivery} {f : List Char} (hf : d.fromLine = some f) :
    Returns max false d ↔ LaterReturns max d.data := by
  constructor
  · intro h
    have hfits := h.fits f hf
    rw [if_neg Bool.false_ne_true, Nat.zero_add] at hfits
    exact ⟨h.start, hfits, h.content rfl⟩
  · rintro ⟨hlooks, hfits, hcontent⟩
    refine ⟨by simp [hf], hlooks, fun f' _ => ?_, nofun, fun _ => hcontent⟩
    rw [if_neg Bool.false_ne_true, Nat.zero_add]
    exact hfits

/-- What is delivered has a `From ` line each. -/
theorem fromLine_of_deliverAll {ds : List Delivery} {bytes : List Char}
    (h : deliverAll ds = some bytes) : ∀ d ∈ ds, ∃ f, d.fromLine = some f := by
  induction ds generalizing bytes with
  | nil => simp
  | cons d ds ih =>
    obtain ⟨f, rest, hf, hrest, -⟩ := deliverAll_cons h
    intro x hx
    rcases List.mem_cons.mp hx with rfl | hx
    · exact ⟨f, hf⟩
    · exact ih hrest x hx

theorem deliverAll_isSome {ds : List Delivery} (h : ∀ d ∈ ds, d.fromLine ≠ none) :
    ∃ bytes, deliverAll ds = some bytes := by
  induction ds with
  | nil => exact ⟨[], rfl⟩
  | cons d ds ih =>
    obtain ⟨rest, hrest⟩ := ih fun x hx => h x (List.mem_cons_of_mem d hx)
    obtain ⟨f, hf⟩ := Option.ne_none_iff_exists'.mp (h d List.mem_cons_self)
    have hentry : deliver d.user d.ctime d.mail
        = some (f ++ ['\n'] ++ (quoteLines (lines d.data)).flatten ++ closing d.data) := by
      rw [deliver]
      change d.mail.makeFrom d.user d.ctime = some f at hf
      rw [hf]
      rfl
    rw [deliverAll, hentry, hrest]
    exact ⟨_, rfl⟩

section

variable {conf : Conf} {rules : List Char → Decision} {path : List Char} {ds : List Delivery}

theorem allReturn_of_roundTrip (hhigh : 0 < conf.queueHigh) (hproper : ∀ d ∈ ds, d.Proper)
    (h : RoundTrip conf rules path ds) : AllReturn conf.maxSize ds := by
  obtain ⟨bytes, n, fetched, hbytes, hfetched, hsame⟩ := h
  cases ds with
  | nil => trivial
  | cons d ds =>
    obtain ⟨f, rest, hf, hrest, hall⟩ := deliverAll_cons hbytes
    have hyields : Yields conf rules
        (begin conf false [path] fun p => if p = path then some bytes else none)
        (firstResult conf f d.data (ds.map Delivery.data)) :=
      yields_deliveries hhigh hproper hf hrest hall
    have hresult := hyields.unique (yields_of_some hfetched)
    have hd := hproper d List.mem_cons_self
    have hne : ∀ x ∈ ds.map Delivery.data, x ≠ [] := by
      intro x hx
      obtain ⟨y, hy, rfl⟩ := List.mem_map.mp hx
      exact (hproper y (List.mem_cons_of_mem d hy)).data
    obtain ⟨hfirst, hlater⟩ := firstResult_same (fromLine_clean hd hf) (fromLine_starts hf)
      (fromLine_long hf) hne hresult hsame
    refine ⟨(returns_first hf).mpr hfirst, fun x hx => ?_⟩
    obtain ⟨g, hg⟩ := fromLine_of_deliverAll hrest x hx
    exact (returns_later hg).mpr (hlater x.data (List.mem_map_of_mem hx))

theorem roundTrip_of_allReturn (hhigh : 0 < conf.queueHigh) (hproper : ∀ d ∈ ds, d.Proper)
    (h : AllReturn conf.maxSize ds) : RoundTrip conf rules path ds := by
  cases ds with
  | nil =>
    obtain ⟨n, hn⟩ : Yields conf rules
        (begin conf false [path] fun p => if p = path then some [] else none) (some []) :=
      yields_begin hhigh (fun _ => rfl) (fun hne => absurd rfl hne) fun hne => absurd rfl hne
    exact ⟨[], n, [], rfl, hn n (Nat.le_refl n), .nil⟩
  | cons d ds =>
    obtain ⟨hd, hds⟩ := h
    have hsenders : ∀ x ∈ d :: ds, x.fromLine ≠ none := by
      intro x hx
      rcases List.mem_cons.mp hx with rfl | hx
      · exact hd.sender
      · exact (hds x hx).sender
    obtain ⟨bytes, hbytes⟩ := deliverAll_isSome hsenders
    obtain ⟨f, rest, hf, hrest, hall⟩ := deliverAll_cons hbytes
    have hproper' := hproper d List.mem_cons_self
    have hlater : ∀ data ∈ ds.map Delivery.data, LaterReturns conf.maxSize data := by
      intro data hdata
      obtain ⟨x, hx, rfl⟩ := List.mem_map.mp hdata
      obtain ⟨g, hg⟩ := fromLine_of_deliverAll hrest x hx
      exact (returns_later hg).mp (hds x hx)
    obtain ⟨n, hn⟩ : Yields conf rules
        (begin conf false [path] fun p => if p = path then some bytes else none)
        (firstResult conf f d.data (ds.map Delivery.data)) :=
      yields_deliveries hhigh hproper hf hrest hall
    have hresult := firstResult_of_returns (fromLine_clean hproper' hf) (fromLine_starts hf)
      ((returns_first hf).mp hd) hlater
    refine ⟨bytes, n, _, hbytes, (hn n (Nat.le_refl n)).trans hresult, ?_⟩
    rw [← List.map_cons, List.forall₂_map_left_iff]
    exact List.forall₂_same.mpr fun x _ => sameText_dropLast x

/-- The mails that are delivered to an empty mbox come back from it exactly when each of them
does: the first one needs a separator, since otherwise the `From ` line stays in front of it;
none may start like a quoted line, or be too large. -/
theorem round_trip_iff (conf : Conf) (rules : List Char → Decision) (path : List Char)
    (ds : List Delivery) (hhigh : 0 < conf.queueHigh) (hproper : ∀ d ∈ ds, d.Proper) :
    RoundTrip conf rules path ds ↔ AllReturn conf.maxSize ds :=
  ⟨allReturn_of_roundTrip hhigh hproper, roundTrip_of_allReturn hhigh hproper⟩

end

/-- Mails of one header and one line each. -/
def twoPlain : List Delivery :=
  [⟨['a', ':', '\n', '\n', 'x', '\n'], ['u'], ['t']⟩, ⟨['>', 'y'], ['u'], ['t']⟩]

theorem round_trip_twoPlain : RoundTrip {} (fun _ => .keep) ['m'] twoPlain := by
  refine (round_trip_iff {} (fun _ => .keep) ['m'] twoPlain (by decide) ?_).mpr ?_
  · intro d hd
    rcases List.mem_cons.mp hd with rfl | hd
    · exact ⟨by decide, by decide, by decide⟩
    · rw [List.mem_singleton.mp hd]
      exact ⟨by decide, by decide, by decide⟩
  · refine ⟨(returns_first (f := ['F', 'r', 'o', 'm', ' ', 'u', ' ', 't']) (by decide)).mpr
      ⟨by decide, by decide, by decide⟩, fun d hd => ?_⟩
    rw [List.mem_singleton.mp hd]
    exact (returns_later (f := ['F', 'r', 'o', 'm', ' ', 'u', ' ', 't']) (by decide)).mpr
      ⟨by decide, by decide, by decide⟩

/-- A mail that starts with a quoted `From ` line. -/
def quotedStart : Delivery :=
  ⟨['>', 'F', 'r', 'o', 'm', ' ', 'a', '\n', '\n', 'x', '\n'], ['u'], ['t']⟩

/-- The quoting is taken off although it was not put on. -/
theorem quoted_start_lost : ¬ RoundTrip {} (fun _ => .keep) ['m'] [quotedStart] := by
  intro h
  have hall := allReturn_of_roundTrip (by decide) (fun d hd => by
    rw [List.mem_singleton.mp hd]
    exact ⟨by decide, by decide, by decide⟩) h
  exact hall.1.start (by decide)

end Fdm.Mbox

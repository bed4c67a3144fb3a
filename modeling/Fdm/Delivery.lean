import Fdm.Maildir.Deliver
import Fdm.Mbox.Append

/-!
# Deliveries to files

A delivery to a maildir or to an mbox is all or nothing, in every run in which no call fails when a
part of the mail has been put somewhere. Neither function takes it away again when one does.
-/

namespace Fdm.Delivery

open Lib.Runs

variable {φ : Type} [DecidableEq φ]

/-- A delivery that comes to its end has put all of the mail into the store, or has left the store
as it was, just when each of its calls met the condition. -/
theorem delivered_iff (conf : Maildir.Conf) (data fromLine held : List Char)
    (files : Maildir.Path Maildir.Name Maildir.Name → Option φ) (delivered : ℕ) :
    (∀ rs t, exec (Maildir.deliverStep conf data) (.init files delivered) rs = some t →
      t.pc.isFinal = true →
        (Maildir.AllOrNothing data (Maildir.Delivering.init files delivered).dir t ↔
          exec (guarded (Maildir.deliverStep conf data) (Maildir.Undisturbed data))
            (.init files delivered) rs = some t)) ∧
    ∀ rs t, exec (Mbox.Append.appendStep fromLine data) { file := held } rs = some t →
      t.pc.isFinal = true →
        (Mbox.Append.AllOrNothing (Mbox.Append.entry fromLine data) held t ↔
          exec (guarded (Mbox.Append.appendStep fromLine data) (Mbox.Append.Untouched held))
            { file := held } rs = some t) :=
  ⟨fun _ _ h hfinal => Maildir.allOrNothing_iff h hfinal,
    fun _ _ h hfinal => Mbox.Append.allOrNothing_iff h hfinal⟩

/-! ## Two mails -/

/-- A maildir of some user. -/
def homeMaildir : Maildir.Conf := { path := some ['m'], hostname := ['h'], pid := 7 }

/-- There are no files yet. -/
def noFiles : Maildir.Path Maildir.Name Maildir.Name → Option Unit := fun _ => none

/-- No call fails. -/
def maildirCalls : List Maildir.Result := [{}, { time := 5 }, { count := 2 }, {}, {}, {}]

/-- No call fails, and the buffer is written by `fflush`. -/
def mboxCalls : List Mbox.Append.AppendResult := [{}, {}, {}, {}, {}, {}, {}, {}, {}, {}, {}, {}]

/-- The mail is in `new`. -/
def inNew : Maildir.Delivering Unit :=
  (exec (Maildir.deliverStep homeMaildir ['x', '\n']) (.init noFiles 0) maildirCalls).get (by decide)

/-- The mail is in the mbox. -/
def inMbox : Mbox.Append.Appending :=
  (exec (Mbox.Append.appendStep ['F'] ['x', '\n']) { file := [] } mboxCalls).get (by decide)

theorem delivered_iff_both :
    (Maildir.AllOrNothing ['x', '\n'] (Maildir.Delivering.init noFiles 0).dir inNew ↔
      exec (guarded (Maildir.deliverStep homeMaildir ['x', '\n']) (Maildir.Undisturbed ['x', '\n']))
        (.init noFiles 0) maildirCalls = some inNew) ∧
    (Mbox.Append.AllOrNothing (Mbox.Append.entry ['F'] ['x', '\n']) [] inMbox ↔
      exec (guarded (Mbox.Append.appendStep ['F'] ['x', '\n']) (Mbox.Append.Untouched []))
        { file := [] } mboxCalls = some inMbox) :=
  have h := delivered_iff homeMaildir ['x', '\n'] ['F'] [] noFiles 0
  ⟨h.1 maildirCalls inNew (Option.some_get _).symm (by decide),
    h.2 mboxCalls inMbox (Option.some_get _).symm (by decide)⟩

/-- `write` writes one byte of two. -/
def shortWrite : List Maildir.Result := [{}, { time := 5 }, { count := 1 }]

/-- The disk is full when some of the first line has been written. -/
def diskFull : List Mbox.Append.AppendResult :=
  [{}, {}, {}, {}, { flushed := 1 }, {}, { fails := true }, {}, {}]

/-- The file with a part of the mail stays in `tmp`, and the part of the entry in the mbox. -/
theorem shortWrite_diskFull_left :
    (∃ t, exec (Maildir.deliverStep homeMaildir ['x', '\n']) (.init noFiles 0) shortWrite = some t ∧
      t.pc.isFinal = true ∧
        ¬ Maildir.AllOrNothing ['x', '\n'] (Maildir.Delivering.init noFiles 0).dir t) ∧
    ∃ t, exec (Mbox.Append.appendStep ['F'] ['x', '\n']) { file := [] } diskFull = some t ∧
      t.pc.isFinal = true ∧ ¬ Mbox.Append.AllOrNothing (Mbox.Append.entry ['F'] ['x', '\n']) [] t := by
  refine ⟨⟨_, rfl, rfl, fun hsame => ?_⟩, _, rfl, rfl, fun hsame => ?_⟩
  · -- the name in `tmp` is taken
    have hname := congrFun hsame (.old (homeMaildir.name 5 0))
    revert hname
    decide
  · cases hsame

end Fdm.Delivery

/-
Leases.  While a file is open for a writer, its data changes only at the hands
of that writer's client, and it goes only with a deletion of it or of something
above it.
-/
import QuotaTree.Proofs.Files.Refusals
import QuotaTree.Proofs.Recovery

namespace QuotaTree

open Nodes

structure File.SameData (file new : File) : Prop where
  blocks : new.blocks = file.blocks
  inlineSize : new.inlineSize = file.inlineSize
  writer : new.writer = file.writer

theorem File.SameData.trans {first second third : File}
    (early : first.SameData second) (late : second.SameData third) :
    first.SameData third where
  blocks := late.blocks.trans early.blocks
  inlineSize := late.inlineSize.trans early.inlineSize
  writer := late.writer.trans early.writer

/-- The client by which a file is revised that must be open for it. -/
def Revision.client? : Revision → Option String
  | .begin client _ | .drop client | .close client _ | .inline client _ =>
    some client
  | .none | .reopen _ | .cut _ => Option.none

/-- The client as which a call writes a file that must be open for it. -/
def Call.client? : Call → Option String
  | .addBlock _ client _ | .abandonBlock _ client _ | .complete _ client _
  | .writeInline _ client _ => some client
  | _ => none

theorem Call.client?_revision (call : Call) (next : Block) :
    (call.revision next).client? = call.client? := by
  cases call <;> rfl

/-- A file that is open keeps its data under all that its client does not ask
for. -/
theorem File.Revises.sameData {file new : File} {revision : Revision}
    {holder : Writer} (revises : file.Revises revision new)
    (held : file.writer = some holder)
    (foreign : revision.client? ≠ some holder.client) : file.SameData new := by
  have notLeased {client : String} (lease : file.LeasedTo client)
      (asked : revision.client? = some client) : False := by
    obtain ⟨writer, hwriter, hclient⟩ := lease
    obtain rfl := Option.some_inj.1 (held.symm.trans hwriter)
    exact foreign (hclient ▸ asked)
  have notClosed (closed : file.writer = none) : False := by
    rw [held] at closed
    cases closed
  cases revises with
  | media => exact ⟨rfl, rfl, rfl⟩
  | begin lease block => exact (notLeased lease rfl).elim
  | drop lease => exact (notLeased lease rfl).elim
  | close lease short => exact (notLeased lease rfl).elim
  | inline lease empty length => exact (notLeased lease rfl).elim
  | reopen closed writer => exact (notClosed closed).elim
  | cut closed length => exact (notClosed closed).elim

namespace Namespace

/-- The file of an inode has the data and the writer that it had. -/
def Keeps (ns : Namespace) (id : InodeId) (file : File) : Prop :=
  ∃ inode new, ns.table.find? id = some inode ∧ inode.content = .file new ∧
    file.SameData new

/-- A call that writes files as the client that has one open, or that deletes
it, by itself or with something above it. -/
def Admits (ns : Namespace) (id : InodeId) (client : String) (call : Call) :
    Prop :=
  call.client? = some client ∨
    call.Deletes ns.table id ∧ Outcome.error? (call.run ns) = none

/-- An event by which an open file may lose its data or its writer.  Edits count
as the calls that they were written for, each where it is made again. -/
def Exposes (ns : Namespace) (id : InodeId) (client : String) : Event → Prop
  | .call call => ns.Admits id client call
  | .apply edit => ns.Admits id client edit.call
  | .replay edits => ∃ applied edit rest mid, edits = applied ++ edit :: rest ∧
      applyAll applied ns.unloaded = .ok () mid ∧ mid.Admits id client edit.call
  | .setImageLoaded _ => False

/-- Nobody but the client that has a file open writes it, and whoever tries is
refused. -/
structure Exclusive (ns : Namespace) : Prop where
  kept : ∀ {id inode file holder}, ns.table.find? id = some inode →
    inode.content = .file file →
    file.writer = some holder → ∀ event, ¬ ns.Exposes id holder.client event →
    (Outcome.state (event.run ns)).Keeps id file
  refused : ∀ {id inode file holder}, ns.table.find? id = some inode →
    inode.content = .file file →
    file.writer = some holder →
    ∀ {call error}, ns.Refuses id holder call error →
    Outcome.error? (call.run ns) = some error ∧
      ∀ edit : Edit, edit.call = call →
        Outcome.error? (apply edit ns) = some error

variable {ns ns' : Namespace} {id : InodeId} {file new : File} {holder : Writer}
  {call : Call} {revision : Revision} {lost : InodeId → Prop}

theorem keeps_iff : ns.Keeps id file ↔ ∃ new, ns.table.tree.file id = some new ∧
    file.SameData new := by
  constructor
  · rintro ⟨inode, new, live, content, same⟩
    exact ⟨new, (file_of_live live).trans (Inode.asFile_eq_some.2 content),
      same⟩
  · rintro ⟨new, hfile, same⟩
    obtain ⟨inode, live, content⟩ := Option.bind_eq_some_iff.1 hfile
    exact ⟨inode, new, live, Inode.asFile_eq_some.1 content, same⟩

theorem Keeps.trans (early : file.SameData new) (late : ns.Keeps id new) :
    ns.Keeps id file := by
  obtain ⟨inode, last, live, content, same⟩ := late
  exact ⟨inode, last, live, content, early.trans same⟩

section Held

variable (sound : ns.Sound) (hfile : ns.table.tree.file id = some file)
  (held : file.writer = some holder)

include hfile held

theorem keeps_of_revised
    (revised : ns.table.tree.Revised ns'.table.tree revision lost)
    (foreign : revision.client? ≠ some holder.client) (kept : ¬ lost id) :
    ns'.Keeps id file := by
  have hopen : file.isOpen = true := by
    rw [File.isOpen, held]
    rfl
  obtain ⟨new, hnew, revises⟩ := revised.held hfile hopen kept
  exact keeps_iff.2 ⟨new, hnew, revises.sameData held foreign⟩

include sound

theorem keeps_call (foreign : ¬ ns.Admits id holder.client call) :
    (Outcome.state (call.run ns)).Keeps id file := by
  obtain ⟨hclient, hdeletes⟩ := not_or.1 foreign
  cases h : call.run ns with
  | ok done ns' =>
    refine keeps_of_revised hfile held (revised_of_ok sound h) ?_
      fun hlost => ?_
    · rw [Call.client?_revision]
      exact hclient
    · exact hdeletes ⟨hlost, h ▸ rfl⟩
  | error error ns' =>
    have hrevised : ns.table.tree.Revised ns'.table.tree .none _ :=
      revised_of_error sound h
    refine keeps_of_revised hfile held hrevised ?_ not_false
    intro hclient
    cases hclient

theorem keeps_apply {edit : Edit}
    (foreign : ¬ ns.Admits id holder.client edit.call) :
    (Outcome.state (apply edit ns)).Keeps id file := by
  by_cases plain : edit.begun? = none
  · rw [Edit.apply_eq_run plain]
    exact keeps_call sound hfile held foreign
  · have hclient :
        (edit.call.revision (ns.blockOut edit)).client? ≠
          some holder.client := by
      rw [Call.client?_revision]
      exact fun h => foreign (.inl h)
    have hdeletes : ¬ edit.call.Deletes ns.table id := by
      cases edit with
      | addBlock => exact not_false
      | _ => exact absurd rfl plain
    cases h : apply edit ns with
    | ok done ns' =>
      exact keeps_of_revised hfile held
        (revised_of_apply_ok sound h) hclient hdeletes
    | error error ns' =>
      exact keeps_of_revised hfile held
        (revised_of_apply_error sound h) hclient not_false

/-- Edits are made again up to the first that fails; the file is kept until one
of them may write or delete it. -/
theorem keeps_applyAll {edits : List Edit}
    (foreign : ∀ applied edit rest mid, edits = applied ++ edit :: rest →
      applyAll applied ns = .ok () mid →
      ¬ mid.Admits id holder.client edit.call) :
    (Outcome.state (applyAll edits ns)).Keeps id file := by
  induction edits generalizing ns file with
  | nil => exact keeps_iff.2 ⟨file, hfile, rfl, rfl, rfl⟩
  | cons edit rest ih =>
    have hkeeps :=
      keeps_apply sound hfile held (foreign [] edit rest ns rfl rfl)
    have hsound := sustaining_apply edit ns sound
    cases h : apply edit ns with
    | error error mid =>
      rw [h] at hkeeps
      rw [applyAll, Outcome.bind_of_error h]
      exact hkeeps
    | ok done mid =>
      rw [h] at hkeeps hsound
      rw [applyAll, Outcome.bind_of_ok h]
      obtain ⟨new, hnew, same⟩ := keeps_iff.1 hkeeps
      refine .trans same (ih hsound hnew (same.writer.trans held) ?_)
      rintro applied other later last rfl happlied
      exact foreign (edit :: applied) other later last rfl
        ((Outcome.bind_of_ok h).trans happlied)

theorem keeps_replay {edits : List Edit}
    (foreign : ¬ ns.Exposes id holder.client (.replay edits)) :
    (Outcome.state (replay edits ns)).Keeps id file := by
  have hunloaded : ns.unloaded.Sound := ⟨sound.books, sound.ledger, sound.locks⟩
  have hkeeps : (Outcome.state (applyAll edits ns.unloaded)).Keeps id file :=
    keeps_applyAll hunloaded hfile held
      fun applied edit rest mid hedits happlied hadmits => foreign
      ⟨applied, edit, rest, mid, hedits, happlied, hadmits⟩
  have hsound := sustaining_applyAll edits ns.unloaded hunloaded
  cases h : applyAll edits ns.unloaded with
  | error error mid =>
    rw [h] at hkeeps
    rw [replay_of_applyAll_error h]
    exact hkeeps
  | ok done mid =>
    rw [h] at hkeeps hsound
    rw [replay_of_applyAll h]
    obtain ⟨new, hnew, same⟩ := keeps_iff.1 hkeeps
    have hloaded : ({ mid with imageLoaded := true } : Namespace).Sound :=
      ⟨hsound.books, hsound.ledger, hsound.locks⟩
    have hforeign :
        ¬ Admits { mid with imageLoaded := true } id holder.client
          .recount := by
      simp [Admits, Call.client?, Call.Deletes]
    have hrecount := keeps_call hloaded hnew (same.writer.trans held) hforeign
    rw [Call.run, state_discard] at hrecount
    exact .trans same hrecount

theorem keeps_event {event : Event}
    (foreign : ¬ ns.Exposes id holder.client event) :
    (Outcome.state (event.run ns)).Keeps id file := by
  cases event with
  | call call => exact keeps_call sound hfile held foreign
  | apply edit => exact keeps_apply sound hfile held foreign
  | replay edits =>
    rw [Event.run, state_discard]
    exact keeps_replay sound hfile held foreign
  | setImageLoaded loaded => exact keeps_iff.2 ⟨file, hfile, rfl, rfl, rfl⟩

end Held

/-- In every namespace that can come about, a file that is open is written only
by the client that has it open. -/
theorem exclusive_after (config : Config) (events : List Event) :
    ((fresh config).after (events.map Event.run)).Exclusive := by
  have sound := (sound_fresh config).after events
  constructor
  case kept =>
    intro id inode file holder live content held event foreign
    have hfile := (file_of_live live).trans (Inode.asFile_eq_some.2 content)
    exact keeps_event sound hfile held foreign
  case refused =>
    intro id inode file holder live content held call error refuses
    have hfile := (file_of_live live).trans (Inode.asFile_eq_some.2 content)
    refine ⟨error?_of_refuses sound hfile held refuses, ?_⟩
    rintro edit rfl
    exact error?_apply_of_refuses sound hfile held refuses

def leaseRun : List Event :=
  [.call (.create "/f" { writer := ⟨"c", ""⟩ })]

/-- A creation without replicas is refused before the file that is there is
looked at. -/
theorem not_beingWritten_leaseRun :
    let ns := (fresh {}).after (leaseRun.map Event.run)
    (ns.table.tree.file ⟨2⟩).map File.writer = some (some ⟨"c", ""⟩) ∧
      ¬ ∀ options : CreateOptions, options.overwrite = true → ∃ use path holder,
        Outcome.error? (Call.run (.create "/f" options) ns) =
          some (.beingWritten use path holder) := by
  refine ⟨by decide +kernel, fun h => ?_⟩
  obtain ⟨use, path, holder, hrefused⟩ :=
    h { writer := ⟨"d", ""⟩, overwrite := true, replication := some 0 } rfl
  have hreplication : Outcome.error? (Call.run (.create "/f"
      { writer := ⟨"d", ""⟩, overwrite := true, replication := some 0 })
      ((fresh {}).after (leaseRun.map Event.run))) =
      some (.badArgument (.zeroReplication "/f")) := by
    decide +kernel
  rw [hreplication] at hrefused
  cases hrefused

end Namespace

end QuotaTree

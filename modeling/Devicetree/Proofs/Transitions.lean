import Devicetree.Proofs.Runs

/-!
# Transitions

What a machine tells of its transitions while it is set up. It starts over from uninitialized,
whatever it was before, and goes through the stages of a build in order. A build that fails does so
while it measures the blob or for want of the block, so no later stage is ever left for failed.
-/

namespace Devicetree

/-- The stages that a set-up reaches if nothing stops it. -/
def Stage.course : List Stage := [.headerValidated, .sized, .allocated, .populated, .ready]

def Stage.transitions (before : Stage) : List Stage → List (Stage × Stage)
  | [] => []
  | after :: rest => (before, after) :: transitions after rest

/-- The stages between which a notice tells of a transition. -/
def Notice.transition? : Notice → Option (Stage × Stage)
  | .moved before after => some (before, after)
  | .gaveUp before _ => some (before, .failed)
  | .noBlob _ | .measured _ | .built _ | .temporaryRefused | .blockRefused _ | .recordOverrun _ _
  | .blockOverrun _ _ | .endlessInterruptChain _ => none

namespace Stage

theorem map_snd_transitions (before : Stage) (stages : List Stage) :
    (transitions before stages).map Prod.snd = stages := by
  induction stages generalizing before with
  | nil => rfl
  | cons after rest ih => rw [transitions, List.map_cons, ih after]

theorem isChain_transitions (before : Stage) (stages : List Stage) :
    (transitions before stages).IsChain fun earlier later => earlier.2 = later.1 := by
  induction stages generalizing before with
  | nil => exact .nil
  | cons after rest ih =>
    cases rest with
    | nil => exact .singleton _
    | cons next rest => exact .cons_cons rfl (ih after)

theorem transitions_concat (before : Stage) (stages : List Stage) (last : Stage) :
    transitions before (stages ++ [last]) =
      transitions before stages ++ [(stages.getLastD before, last)] := by
  induction stages generalizing before with
  | nil => rfl
  | cons after rest ih =>
    rw [List.cons_append, transitions, transitions, ih after, List.cons_append, List.getLastD_cons]

end Stage

namespace Build

/-- Where and why the build of a blob is cut short. -/
inductive Cut (b : Blob) (heap : Heap) : Stage → Error → Prop
  | malformed : (measure b heap).2 = .error (.blob .malformed) →
      b.outline.ending = .failed .malformed → Cut b heap .headerValidated .malformed
  | noNodes : (measure b heap).2 = .error (.blob .noNodes) →
      b.outline.ending = .empty → Cut b heap .headerValidated .noNodes
  | temporaryRefused {i : Nat} : (measure b heap).2 = .error .temporaryRefused →
      i < Event.startCount b.outline.events → heap.grants (heap.requests + i) = false →
      Cut b heap .headerValidated .outOfMemory
  /-- Some record would start where no offset reaches. -/
  | outOfRange {start : Nat} : (measure b heap).2 = .error .outOfRange →
      start ∈ b.recordStarts → 2 ^ 32 ≤ start → Cut b heap .headerValidated .outOfMemory
  | blockRefused {size : Nat} : (measure b heap).2 = .ok size →
      heap.grants (heap.requests + Event.startCount b.outline.events) = false →
      Cut b heap .sized .outOfMemory

variable {b : Blob} {heap : Heap} {size : Nat}

theorem cut_of_measure_error {f : Fault} (hm : (measure b heap).2 = .error f) :
    Cut b heap .headerValidated f.error := by
  -- if all records could be placed, nothing would be out of range
  rcases error_of_measure hm with ⟨rfl, hnone⟩ | ⟨rfl, i, hi, hrefuses⟩ | hending
  · by_contra hcut
    have hstarts : ∀ s ∈ b.recordStarts, s < 2 ^ 32 := by
      intro s hs
      by_contra hlt
      exact hcut (.outOfRange hm hs (Nat.not_lt.1 hlt))
    obtain ⟨new, c, hnew⟩ := b.exists_reserveAll hstarts
    rw [hnone] at hnew
    contradiction
  · exact .temporaryRefused hm hi hrefuses
  · cases hend : b.outline.ending with
    | complete => simp [hend, Fault.ofEnding?] at hending
    | empty =>
      obtain rfl : .blob .noNodes = f := by simpa [hend, Fault.ofEnding?] using hending
      exact .noNodes hm hend
    | failed e =>
      obtain rfl : .blob e = f := by simpa [hend, Fault.ofEnding?] using hending
      obtain rfl := Blob.eq_malformed_of_outline hend
      exact .malformed hm hend

inductive Goes (b : Blob) (heap : Heap) : Prop
  | unmeasured {f : Fault} : (build b heap).result = .error f.error →
      (build b heap).journal = .reached .headerValidated :: f.notices.map .noted →
      Cut b heap .headerValidated f.error → Goes b heap
  | refused {size : Nat} : (build b heap).result = .error .outOfMemory →
      (build b heap).journal = [.reached .headerValidated, .noted (.measured size),
        .reached .sized, .noted (.blockRefused (size + markSize))] →
      Cut b heap .sized .outOfMemory → Goes b heap
  | built {t : Tree} : (build b heap).result = .ok t → Goes b heap

theorem goes (b : Blob) (heap : Heap) : Goes b heap := by
  cases hm : (measure b heap).2 with
  | error f =>
    exact .unmeasured (build_of_measure_error hm).1 (journal_of_measure_error hm)
      (cut_of_measure_error hm)
  | ok size =>
    cases ha : (measure b heap).1.allocate ⟨size + markSize, recordAlign⟩ with
    | mk heap' granted =>
      cases granted with
      | none =>
        have hserves := serves_measure hm
        have hrefuses := Heap.refuses_of_allocate ha
        rw [hserves.grants_eq, hserves.requests_eq] at hrefuses
        exact .refused (build_of_refused hm ha).1 (journal_of_refused hm ha)
          (.blockRefused hm hrefuses)
      | some block =>
        obtain ⟨-, t, -, -, ht, -⟩ := build_of_measure hm ha
        exact .built ht

end Build

namespace Machine

open Build

def Step.noticesAt (s : Step) (level : Level) : List Notice :=
  s.notices.filter fun n => n.level = level

/-- What is told of a set-up whose blob is rejected. -/
structure Rejected (e : Error) (s : Step) : Prop where
  answer : s.answer = .error e
  stage : s.machine.stage = .failed
  trace : s.noticesAt .trace = []
  warn : s.noticesAt .warn =
    match e with
    | .badAddress _ | .badMagic => [.noBlob e]
    | _ => []

/-- What is told of a set-up whose blob is accepted. -/
structure Traces (b : Blob) (heap : Heap) (transitions : List (Stage × Stage)) (s : Step) :
    Prop where
  trace : (s.noticesAt .trace).map Notice.transition? = transitions.map some
  first : transitions.head? = some (.uninitialized, .headerValidated)
  chain : transitions.IsChain fun earlier later => earlier.2 = later.1
  inOrder : (transitions.map Prod.snd).filter (· ≠ .failed) <+: Stage.course
  complete_iff : transitions.map Prod.snd = Stage.course ↔ s.answer = .ok ()
  /-- A set-up that fails tells so last of all. -/
  cut : ∀ e, s.answer = .error e → ∃ earlier stage,
    s.noticesAt .trace = earlier ++ [.gaveUp stage e] ∧ Cut b heap stage e ∧
      ∀ n ∈ earlier, ∃ before, ∃ after ∈ Stage.course, n = .moved before after
  last : transitions.getLast?.map Prod.snd = some s.machine.stage

variable {m : Machine} {b : Blob} {heap : Heap} {e : Error} {s : Step} {stage : Stage}

theorem rejected_setUpBlob (m : Machine) (e : Error) : Rejected e (m.setUpBlob (.error e)) := by
  constructor
  case answer => rfl
  case stage => rfl
  case trace => cases e <;> rfl
  case warn => cases e <;> rfl

theorem filter_trace_notices (f : Fault) :
    f.notices.filter (fun n => n.level = .trace) = [] := by
  cases f <;> rfl

theorem follow_noted (stage : Stage) (notices : List Notice) :
    follow stage (notices.map .noted) = (stage, notices) := by
  induction notices with
  | nil => rfl
  | cons n rest ih => rw [List.map_cons, follow, ih]

theorem setUpBlob_of_error {notices : List Notice} (hresult : (build b m.heap).result = .error e)
    (hfollow : follow m.stage (build b m.heap).journal = (stage, notices)) :
    m.setUpBlob (.ok b) = ⟨⟨(build b m.heap).heap, .failed, none⟩, .error e,
      notices ++ [.gaveUp stage e]⟩ := by
  simp only [setUpBlob, hresult, hfollow]

theorem setUpBlob_of_ok {t : Tree} {notices : List Notice}
    (hresult : (build b m.heap).result = .ok t)
    (hfollow : follow m.stage (build b m.heap).journal = (stage, notices)) :
    m.setUpBlob (.ok b) = ⟨⟨(build b m.heap).heap, stage, some t⟩, .ok (), notices⟩ := by
  simp only [setUpBlob, hresult, hfollow]

theorem traces_of_complete (hanswer : s.answer = .ok ()) (hstage : s.machine.stage = .ready)
    (htrace : s.noticesAt .trace =
      (Stage.transitions .uninitialized Stage.course).map fun move => .moved move.1 move.2) :
    Traces b heap (Stage.transitions .uninitialized Stage.course) s := by
  constructor
  case trace => rw [htrace]; rfl
  case first => rfl
  case chain => exact Stage.isChain_transitions _ _
  case inOrder =>
    rw [Stage.map_snd_transitions]
    decide
  case complete_iff => simp [Stage.map_snd_transitions, hanswer]
  case cut => simp [hanswer]
  case last =>
    rw [hstage]
    rfl

theorem traces_of_cut (stages : List Stage) (hstages : stages <+: Stage.course)
    (hlast : stages.getLast? = some stage) (hanswer : s.answer = .error e)
    (hstage : s.machine.stage = .failed) (hcut : Cut b heap stage e)
    (htrace : s.noticesAt .trace = (Stage.transitions .uninitialized stages).map
      (fun move => .moved move.1 move.2) ++ [.gaveUp stage e]) :
    Traces b heap (Stage.transitions .uninitialized (stages ++ [.failed])) s := by
  have hmem : ∀ after ∈ stages, after ∈ Stage.course := hstages.subset
  have hfailed : .failed ∉ Stage.course := by decide
  constructor
  case trace =>
    rw [htrace, Stage.transitions_concat, List.getLastD_eq_getLast?, hlast]
    simp [Notice.transition?]
  case first =>
    cases stages with
    | nil => contradiction
    | cons after rest =>
      obtain rfl := (List.cons_prefix_cons.1 hstages).1
      rfl
  case chain => exact Stage.isChain_transitions _ _
  case inOrder =>
    have hall : stages.filter (· ≠ .failed) = stages := by
      rw [List.filter_eq_self]
      intro after hafter
      have hne : after ≠ .failed := fun h => hfailed (h ▸ hmem after hafter)
      simpa using hne
    rw [Stage.map_snd_transitions, List.filter_append, hall]
    simpa using hstages
  case complete_iff =>
    rw [Stage.map_snd_transitions, hanswer]
    refine ⟨fun h => absurd ?_ hfailed, nofun⟩
    rw [← h]
    simp
  case cut =>
    intro e' he'
    obtain rfl := Except.error.inj (hanswer.symm.trans he')
    refine ⟨_, stage, htrace, hcut, ?_⟩
    intro n hn
    obtain ⟨⟨before, after⟩, hmove, rfl⟩ := List.mem_map.1 hn
    have hafter := List.mem_map_of_mem (f := Prod.snd) hmove
    rw [Stage.map_snd_transitions] at hafter
    exact ⟨before, after, hmem after hafter, rfl⟩
  case last =>
    rw [← List.getLast?_map, Stage.map_snd_transitions, hstage]
    simp

theorem exists_traces_setUpBlob (hm : m.stage = .uninitialized) (b : Blob) :
    ∃ transitions, Traces b m.heap transitions (m.setUpBlob (.ok b)) := by
  cases goes b m.heap with
  | @unmeasured f hresult hjournal hcut =>
    have hfollow : follow m.stage (build b m.heap).journal =
        (.headerValidated, .moved .uninitialized .headerValidated :: f.notices) := by
      rw [hjournal, follow, follow_noted, hm]
    rw [setUpBlob_of_error hresult hfollow]
    refine ⟨_, traces_of_cut [.headerValidated] (by decide) rfl rfl rfl hcut ?_⟩
    simp only [Step.noticesAt, List.filter_append, List.filter_cons, filter_trace_notices]
    rfl
  | @refused size hresult hjournal hcut =>
    have hfollow : follow m.stage (build b m.heap).journal =
        (.sized, [.moved .uninitialized .headerValidated, .measured size,
          .moved .headerValidated .sized, .blockRefused (size + markSize)]) := by
      rw [hjournal, hm]
      rfl
    rw [setUpBlob_of_error hresult hfollow]
    exact ⟨_, traces_of_cut [.headerValidated, .sized] (by decide) rfl rfl rfl hcut rfl⟩
  | @built t hresult =>
    have hjournal := journal_of_build hresult
    have hfollow : follow m.stage (build b m.heap).journal =
        (.ready, [.moved .uninitialized .headerValidated, .measured t.size,
          .moved .headerValidated .sized, .moved .sized .allocated, .moved .allocated .populated,
          .built t.nodeCount, .moved .populated .ready]) := by
      rw [hjournal, hm]
      rfl
    rw [setUpBlob_of_ok hresult hfollow]
    exact ⟨_, traces_of_complete rfl rfl rfl⟩

/-- A set-up in a run: the machine before it, what it was given, and what came of it. -/
structure Call where
  before : Machine
  subject : Except Error Blob
  step : Step

def call? (m : Machine) : Command → Option Call
  | .setUp buffer => some ⟨m, Blob.ofBuffer buffer, m.setUp buffer⟩
  | .setUpMemory memory => some ⟨m, Blob.ofMemory memory, m.setUpMemory memory⟩
  | .tearDown | .ask _ _ | .regrant _ => none

/-- A set-up tells what becomes of the blob it was given. -/
structure Call.Logged (call : Call) : Prop where
  rejected : ∀ e, call.subject = .error e → Rejected e call.step
  accepted : ∀ b, call.subject = .ok b →
    ∃ transitions, Traces b call.before.drop transitions call.step

theorem logged_setUpBlob (m : Machine) (subject : Except Error Blob) :
    Call.Logged ⟨m, subject, m.tearDown.setUpBlob subject⟩ := by
  constructor
  case rejected =>
    rintro e rfl
    exact rejected_setUpBlob m.tearDown e
  case accepted =>
    rintro b rfl
    exact exists_traces_setUpBlob (m := m.tearDown) rfl b

theorem logged_of_call? {c : Command} {call : Call} (h : m.call? c = some call) :
    call.Logged ∧ m.perform c = call.step.machine := by
  cases c with
  | setUp buffer =>
    cases h
    exact ⟨logged_setUpBlob m _, rfl⟩
  | setUpMemory memory =>
    cases h
    exact ⟨logged_setUpBlob m _, rfl⟩
  | tearDown => contradiction
  | ask after q => contradiction
  | regrant grants => contradiction

/-- Whatever was done to a machine, a set-up of bytes that are no blob tells of no transition, ends
failed, and warns if the bytes do not even look like a blob. A set-up of a blob tells of a chain of
transitions from uninitialized through the stages in order. If the set-up succeeds the chain is
complete, and else its last transition is to failed, from where measuring failed or where the block
was refused. The machine is left in the stage that the chain ends in. -/
theorem logged_run (heap : Heap) (commands : List Command) (c : Command) (call : Call)
    (h : ((start heap).run commands).call? c = some call) :
    call.Logged ∧ (start heap).run (commands ++ [c]) = call.step.machine := by
  rw [run, List.foldl_concat]
  exact logged_of_call? h

/-- The heap grants nothing when the blob is to be replaced. -/
theorem logged_run_sample :
    ∃ call, ((start (.fresh 0)).run (sampleRun.take 3)).call?
        (.setUp ⟨0x1000, Blob.sample.bytes⟩) = some call ∧ call.Logged ∧
      call.before.stage = .ready ∧
      (call.step.noticesAt .trace).map Notice.transition? =
        [some (.uninitialized, .headerValidated), some (.headerValidated, .failed)] := by
  obtain ⟨hlogged, -⟩ :=
    logged_run (.fresh 0) (sampleRun.take 3) (.setUp ⟨0x1000, Blob.sample.bytes⟩) _ rfl
  refine ⟨_, rfl, hlogged, ?_, ?_⟩
  · decide +kernel
  · decide +kernel

end Machine
end Devicetree

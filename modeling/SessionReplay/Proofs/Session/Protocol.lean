import Mathlib.Data.List.Induction
import SessionReplay.Proofs.Session.Effect

/-!
The order in which a session sends its events. Each document comes right after its page, in one
tick; changes and pointers come only where a document has gone before and neither a stop nor a
reset lies in between.
-/

namespace SessionReplay.Session

/-- From here on the next tick has no document that it could lead on from. -/
def Begins (session : Session) : Operation → Prop
  | .start _ => session.isCapturing = false
  | .reset => True
  | _ => False

/-- The operation ends what was recorded so far. -/
def Breaks (session : Session) (operation : Operation) : Prop :=
  operation = .stop ∨ Begins session operation

def Unbroken (session : Session) : List Operation → Prop
  | [] => True
  | operation :: operations =>
      ¬Breaks session operation ∧ Unbroken (session.step operation).after operations

/-- A tick has captured, and nothing has ended the recording since. -/
def HasCaptured (session : Session) (operations : List Operation) : Prop :=
  ∃ former source root now latter, operations = former ++ .tick source root now :: latter ∧
    (session.after former).isCapturing = true ∧
    Unbroken (session.after (former ++ [.tick source root now])) latter

/-- What a run sends, each event with the place of the operation that sent it. -/
def sent (session : Session) (operations : List Operation) : List (Nat × Wire.Event) :=
  (session.run operations).zipIdx.flatMap fun (step, place) =>
    step.output.events.map fun event => (place, event)

/-- The events of a tick agree with its outcome. -/
def Accords (config : Config) (now : Timestamp) : TickOutcome → List Wire.Event → Prop
  | .snapshot _, events => ∃ tree, events = presentation config now tree
  | .incremental records, events => 1 ≤ records ∧ records ≤ config.maxMutations ∧
      ∃ changes : Wire.Mutation, events = [⟨.increment (.mutation changes), now⟩] ∧
        changes.isEmpty = false
  | .unchanged, events | .idle, events => events = []

/-- The rules for all runs that start from this session. Type 4 is a page, type 2 a document and
type 3 an increment. -/
structure Protocol (session : Session) : Prop where
  idle : ∀ operations operation, (session.after operations).isCapturing = false →
    ((session.after operations).step operation).output.events = []
  /-- The first tick after a start or a reset sends a page and a document, unless the session is
  idle. -/
  opening : ∀ former operation between source root now,
    Begins (session.after former) operation → (∀ other ∈ between, other.isTick = false) →
    (session.after (former ++ operation :: between)).isCapturing = true →
    ∃ reason tree,
      let step := (session.after (former ++ operation :: between)).step (.tick source root now)
      step.reply = .ticked (.snapshot reason) ∧ step.after.prior = some tree ∧
        step.output.events = presentation session.config now tree
  /-- A page has its document right behind it. -/
  followed : ∀ operations former place event latter,
    sent session operations = former ++ (place, event) :: latter → event.payload.typeCode = 4 →
    ∃ next rest, latter = (place, next) :: rest ∧ next.payload.typeCode = 2 ∧
      next.time = event.time
  /-- A document has its page right before it. -/
  preceded : ∀ operations former place event latter,
    sent session operations = former ++ (place, event) :: latter → event.payload.typeCode = 2 →
    ∃ start page, former = start ++ [(place, page)] ∧ page.payload.typeCode = 4 ∧
      page.time = event.time
  /-- An increment has a document before it, with no stop and no reset in between. -/
  grounded : ∀ operations former place event latter,
    sent session operations = former ++ (place, event) :: latter → event.payload.typeCode = 3 →
    ∃ earlier document, (earlier, document) ∈ former ∧ document.payload.typeCode = 2 ∧
      ∀ operation ∈ (operations.take place).drop (earlier + 1),
        operation ≠ .stop ∧ operation ≠ .reset
  ticks : ∀ operations source root now,
    let step := (session.after operations).step (.tick source root now)
    ∃ outcome, step.reply = .ticked outcome ∧
      Accords session.config now outcome step.output.events
  prior : ∀ operations,
    (session.after operations).prior.isSome = true ↔ HasCaptured session operations

section Steps

variable {session : Session} {operation : Operation}

theorem known_of_target {view : ViewHandle} {id : NodeId}
    (target : session.target? view = some id) :
    session.isCapturing = true ∧ session.prior.isSome = true := by
  unfold target? at target
  split at target
  case isTrue both => exact Bool.and_eq_true_iff.mp both
  case isFalse => contradiction

theorem known_of_samples {touches : List Touch}
    (some : touches.filterMap (Touch.sample? session) ≠ []) :
    session.isCapturing = true ∧ session.prior.isSome = true := by
  obtain ⟨sample, member⟩ := List.exists_mem_of_ne_nil _ some
  obtain ⟨touch, -, made⟩ := List.mem_filterMap.mp member
  obtain ⟨id, target, -⟩ := Option.map_eq_some_iff.mp made
  exact known_of_target target

theorem events_idle (idle : session.isCapturing = false) (operation : Operation) :
    (session.step operation).output.events = [] := by
  have effect := effect_step session operation
  generalize session.step operation = step at effect ⊢
  have asleep : session.isCapturing ≠ true := by rw [idle]; exact Bool.false_ne_true
  cases effect with
  | captured source root now active supply capture amid sends => exact absurd active asleep
  | pointed kind place now known => exact absurd (known_of_target known).1 asleep
  | touched now some => exact absurd (known_of_samples some).1 asleep
  | _ => rfl

/-- An operation sends nothing, or a page and its document, or one increment. -/
theorem events_step (session : Session) (operation : Operation) :
    (session.step operation).output.events = [] ∨
    (∃ page document, (session.step operation).output.events = [page, document] ∧
      page.payload.typeCode = 4 ∧ document.payload.typeCode = 2 ∧ page.time = document.time) ∨
    ∃ event, (session.step operation).output.events = [event] ∧ event.payload.typeCode = 3 ∧
      session.prior.isSome = true := by
  have effect := effect_step session operation
  generalize session.step operation = step at effect ⊢
  cases effect with
  | captured source root now active supply capture amid sends =>
      cases sends with
      | snapshot reason => exact .inr (.inl ⟨_, _, rfl, rfl, rfl, rfl⟩)
      | incremental known some few full => exact .inr (.inr ⟨_, rfl, rfl, known⟩)
      | unchanged known => exact .inl rfl
  | pointed kind place now known => exact .inr (.inr ⟨_, rfl, rfl, (known_of_target known).2⟩)
  | touched now some => exact .inr (.inr ⟨_, rfl, rfl, (known_of_samples some).2⟩)
  | _ => exact .inl rfl

/-- What an event of an operation is, and what the operation sends next to it. -/
theorem event_cases {first last : List Wire.Event} {event : Wire.Event}
    (split : (session.step operation).output.events = first ++ event :: last) :
    (event.payload.typeCode = 4 ∧ ∃ document, last = [document] ∧
      document.payload.typeCode = 2 ∧ document.time = event.time) ∨
    (event.payload.typeCode = 2 ∧ ∃ page, first = [page] ∧
      page.payload.typeCode = 4 ∧ page.time = event.time) ∨
    (event.payload.typeCode = 3 ∧ session.prior.isSome = true) := by
  rcases events_step session operation with none |
    ⟨page, document, both, pageCode, documentCode, time⟩ | ⟨own, single, code, known⟩
  · rw [none] at split
    simp at split
  · rw [both] at split
    rcases List.cons_eq_append_iff.mp split with ⟨rfl, same⟩ | ⟨others, rfl, tail⟩
    · cases same
      exact .inl ⟨pageCode, document, rfl, documentCode, time.symm⟩
    · rcases List.cons_eq_append_iff.mp tail with ⟨rfl, same⟩ | ⟨more, rfl, tail⟩
      · cases same
        exact .inr (.inl ⟨documentCode, page, rfl, pageCode, time⟩)
      · simp at tail
  · rw [single] at split
    rcases List.cons_eq_append_iff.mp split with ⟨rfl, same⟩ | ⟨others, rfl, tail⟩
    · cases same
      exact .inr (.inr ⟨code, known⟩)
    · simp at tail

/-- Whether there is a document after an operation. -/
theorem prior_step (session : Session) (operation : Operation) :
    (session.step operation).after.prior.isSome = true ↔
      (operation.isTick = true ∧ session.isCapturing = true) ∨
        (session.prior.isSome = true ∧ ¬Breaks session operation) := by
  have effect := effect_step session operation
  generalize session.step operation = step at effect ⊢
  cases effect with
  | resumed now active => simp [Breaks, Begins, Operation.isTick, active]
  | started now idle => simp [Breaks, Begins, Operation.isTick, idle]
  | stopped => simp [Breaks, Operation.isTick]
  | reset => simp [Breaks, Begins, Operation.isTick]
  | ignored source root now idle => simp [Breaks, Begins, idle]
  | captured source root now active supply capture amid sends =>
      simp [Operation.isTick, active]
  | pointed kind place now known => simp [Breaks, Begins, Operation.isTick]
  | missed kind place now unknown => simp [Breaks, Begins, Operation.isTick]
  | touched now some => simp [Breaks, Begins, Operation.isTick]
  | untouched now none => simp [Breaks, Begins, Operation.isTick]

/-- A tick that captures sends the page and the document when there was no document before. -/
theorem first_tick (source : View.Introspector) (root : ViewHandle) (now : Timestamp)
    (active : session.isCapturing = true) (first : session.prior.isSome = false) :
    ∃ reason tree,
      (session.step (.tick source root now)).reply = .ticked (.snapshot reason) ∧
      (session.step (.tick source root now)).after.prior = some tree ∧
      (session.step (.tick source root now)).output.events =
        presentation session.config now tree := by
  have effect := effect_step session (.tick source root now)
  generalize session.step (.tick source root now) = step at effect ⊢
  cases effect with
  | ignored source root now idle => rw [active] at idle; contradiction
  | captured source root now active supply capture amid sends =>
      cases sends with
      | snapshot reason => exact ⟨reason, _, rfl, rfl, rfl⟩
      | incremental known => rw [first] at known; contradiction
      | unchanged known => rw [first] at known; contradiction

theorem accords_tick (session : Session) (source : View.Introspector) (root : ViewHandle)
    (now : Timestamp) :
    ∃ outcome, (session.step (.tick source root now)).reply = .ticked outcome ∧
      Accords session.config now outcome
        (session.step (.tick source root now)).output.events := by
  have effect := effect_step session (.tick source root now)
  generalize session.step (.tick source root now) = step at effect ⊢
  cases effect with
  | ignored source root now idle => exact ⟨_, rfl, rfl⟩
  | captured source root now active supply capture amid sends =>
      refine ⟨_, rfl, ?_⟩
      cases sends with
      | snapshot reason => exact ⟨_, rfl⟩
      | incremental known some few full => exact ⟨some, few, _, rfl, full⟩
      | unchanged known => rfl

end Steps

section Runs

variable {session : Session}

/-- Without a tick there is no new document. -/
theorem prior_between {operations : List Operation}
    (first : session.prior.isSome = false)
    (still : ∀ operation ∈ operations, operation.isTick = false) :
    (session.after operations).prior.isSome = false := by
  induction operations generalizing session with
  | nil => exact first
  | cons operation operations induction =>
      obtain ⟨own, others⟩ := List.forall_mem_cons.mp still
      apply induction _ others
      rw [← Bool.not_eq_true, prior_step, own, first]
      simp

theorem unbroken_concat (session : Session) (operations : List Operation)
    (operation : Operation) :
    Unbroken session (operations ++ [operation]) ↔
      Unbroken session operations ∧ ¬Breaks (session.after operations) operation := by
  induction operations generalizing session with
  | nil => simp [Unbroken, after]
  | cons first operations induction =>
      rw [List.cons_append, Unbroken, induction, Unbroken, and_assoc]
      rfl

theorem hasCaptured_concat (session : Session) (operations : List Operation)
    (operation : Operation) :
    HasCaptured session (operations ++ [operation]) ↔
      (operation.isTick = true ∧ (session.after operations).isCapturing = true) ∨
        (HasCaptured session operations ∧ ¬Breaks (session.after operations) operation) := by
  constructor
  · rintro ⟨former, source, root, now, latter, split, active, unbroken⟩
    rcases List.eq_nil_or_concat latter with rfl | ⟨between, last, rfl⟩
    · obtain ⟨rfl, same⟩ := List.append_inj' split rfl
      cases same
      exact .inl ⟨rfl, active⟩
    · rw [List.concat_eq_append] at split unbroken
      rw [← List.cons_append, ← List.append_assoc] at split
      obtain ⟨rfl, same⟩ := List.append_inj' split rfl
      cases same
      rw [unbroken_concat, ← after_append, List.append_assoc] at unbroken
      exact .inr ⟨⟨former, source, root, now, between, rfl, active, unbroken.1⟩, unbroken.2⟩
  · rintro (⟨tick, active⟩ | ⟨⟨former, source, root, now, between, rfl, active, unbroken⟩, goesOn⟩)
    · cases operation with
      | tick source root now => exact ⟨operations, source, root, now, [], rfl, active, trivial⟩
      | _ => contradiction
    · refine ⟨former, source, root, now, between ++ [operation], by simp, active, ?_⟩
      rw [unbroken_concat, ← after_append, List.append_assoc]
      exact ⟨unbroken, goesOn⟩

theorem prior_iff_hasCaptured (first : session.prior = none) (operations : List Operation) :
    (session.after operations).prior.isSome = true ↔ HasCaptured session operations := by
  induction operations using List.reverseRecOn with
  | nil =>
      apply iff_of_false
      · rw [after, List.foldl_nil, first]
        exact Bool.false_ne_true
      · rintro ⟨former, source, root, now, latter, split, -⟩
        simp at split
  | append_singleton operations operation induction =>
      rw [after_concat, prior_step, hasCaptured_concat, induction]

theorem sent_concat (session : Session) (operations : List Operation) (operation : Operation) :
    sent session (operations ++ [operation]) = sent session operations ++
      ((session.after operations).step operation).output.events.map fun event =>
        (operations.length, event) := by
  rw [sent, run_concat, List.zipIdx_append, List.flatMap_append, length_run]
  simp [sent]

/-- The operation at this place has sent the event, with `first` before it and `last` after it. -/
def SentAt (session : Session) (operations : List Operation) (former : List (Nat × Wire.Event))
    (place : Nat) (event : Wire.Event) (latter : List (Nat × Wire.Event)) : Prop :=
  ∃ before operation later first last rest, operations = before ++ operation :: later ∧
    place = before.length ∧
    ((session.after before).step operation).output.events = first ++ event :: last ∧
    former = sent session before ++ first.map (fun event => (place, event)) ∧
    latter = last.map (fun event => (place, event)) ++ rest

theorem sentAt_last {operations : List Operation} {operation : Operation}
    {start latter : List (Nat × Wire.Event)} {place : Nat} {event : Wire.Event}
    (block : ((session.after operations).step operation).output.events.map
      (fun event => (operations.length, event)) = start ++ (place, event) :: latter) :
    SentAt session (operations ++ [operation]) (sent session operations ++ start) place event
      latter := by
  obtain ⟨first, others, events, rfl, tail⟩ := List.map_eq_append_iff.mp block
  obtain ⟨own, last, rfl, same, rfl⟩ := List.map_eq_cons_iff.mp tail
  cases same
  exact ⟨operations, operation, [], first, last, [], rfl, rfl, events, rfl,
    (List.append_nil _).symm⟩

/-- Every event stands among the events of the operation that has sent it. -/
theorem sentAt_of_split {operations : List Operation} {former latter : List (Nat × Wire.Event)}
    {place : Nat} {event : Wire.Event}
    (split : sent session operations = former ++ (place, event) :: latter) :
    SentAt session operations former place event latter := by
  induction operations using List.reverseRecOn generalizing latter with
  | nil => simp [sent, run] at split
  | append_singleton operations operation induction =>
      rw [sent_concat] at split
      rcases List.append_eq_append_iff.mp split with ⟨start, rfl, block⟩ | ⟨rest, same, tail⟩
      · exact sentAt_last block
      · rcases List.cons_eq_append_iff.mp tail with ⟨rfl, block⟩ | ⟨between, rfl, rfl⟩
        · have last : SentAt session (operations ++ [operation])
              (sent session operations ++ []) place event latter := sentAt_last block
          rwa [List.append_nil, same, List.append_nil] at last
        · obtain ⟨before, own, later, first, last, rest, rfl, here, events, start, rfl⟩ :=
            induction same
          exact ⟨before, own, later ++ [operation], first, last, _, by simp, here, events, start,
            List.append_assoc _ _ _⟩

/-- Where there is a document, one has been sent, and since then there was no stop and no reset. -/
theorem grounded_prior (first : session.prior = none) {operations : List Operation}
    (known : (session.after operations).prior.isSome = true) :
    ∃ earlier document, (earlier, document) ∈ sent session operations ∧
      document.payload.typeCode = 2 ∧
      ∀ operation ∈ operations.drop (earlier + 1),
        operation ≠ .stop ∧ operation ≠ .reset := by
  induction operations using List.reverseRecOn with
  | nil =>
      rw [after, List.foldl_nil, first] at known
      contradiction
  | append_singleton operations operation induction =>
      rw [after_concat, prior_step] at known
      rw [sent_concat]
      cases before : (session.after operations).prior.isSome with
      | true =>
          obtain ⟨earlier, document, member, code, between⟩ := induction before
          have own : operation ≠ .stop ∧ operation ≠ .reset := by
            rcases known with ⟨tick, -⟩ | ⟨-, goesOn⟩
            · constructor <;> rintro rfl <;> contradiction
            · constructor <;> rintro rfl
              · exact goesOn (.inl rfl)
              · exact goesOn (.inr trivial)
          refine ⟨earlier, document, List.mem_append_left _ member, code, ?_⟩
          intro other among
          rw [List.drop_append, List.mem_append] at among
          rcases among with former | last
          · exact between other former
          · rw [List.mem_singleton.mp (List.mem_of_mem_drop last)]
            exact own
      | false =>
          -- The document has come with this operation, so it has been sent now.
          obtain ⟨tick, active⟩ := known.resolve_right fun both => by
            rw [before] at both
            exact Bool.false_ne_true both.1
          cases operation with
          | tick source root now =>
              obtain ⟨reason, tree, -, -, events⟩ := first_tick source root now active before
              refine ⟨operations.length, session.config.encoder.encodeSnapshot tree now, ?_, rfl,
                ?_⟩
              · rw [events, config_after]
                simp [presentation]
              · rw [List.drop_eq_nil_of_le (by simp)]
                exact List.forall_mem_nil _
          | _ => contradiction

end Runs

/-- Every session keeps to the protocol, whatever is done with it. -/
theorem protocol_new (config : Config) : Protocol { config } := by
  constructor
  case idle => exact fun operations operation idle => events_idle idle operation
  case opening =>
    intro former operation between source root now begins still active
    have ended : ((after { config } former).step operation).after.prior.isSome = false := by
      rw [← Bool.not_eq_true, prior_step]
      rintro (⟨tick, -⟩ | ⟨-, goesOn⟩)
      · cases operation with
        | tick source root now => exact begins
        | _ => contradiction
      · exact goesOn (.inr begins)
    have first : (after { config } (former ++ operation :: between)).prior.isSome = false := by
      rw [after_append]
      change (after ((after { config } former).step operation).after between).prior.isSome = false
      exact prior_between ended still
    have opened := first_tick source root now active first
    rw [config_after] at opened
    exact opened
  case followed =>
    intro operations former place event latter split code
    obtain ⟨before, operation, later, first, last, rest, -, -, events, -, rfl⟩ :=
      sentAt_of_split split
    rcases event_cases events with ⟨-, document, rfl, same⟩ | ⟨other, -⟩ | ⟨other, -⟩
    · exact ⟨document, rest, rfl, same⟩
    · rw [other] at code
      contradiction
    · rw [other] at code
      contradiction
  case preceded =>
    intro operations former place event latter split code
    obtain ⟨before, operation, later, first, last, rest, -, -, events, rfl, -⟩ :=
      sentAt_of_split split
    rcases event_cases events with ⟨other, -⟩ | ⟨-, page, rfl, same⟩ | ⟨other, -⟩
    · rw [other] at code
      contradiction
    · exact ⟨_, page, rfl, same⟩
    · rw [other] at code
      contradiction
  case grounded =>
    intro operations former place event latter split code
    obtain ⟨before, operation, later, first, last, rest, rfl, rfl, events, rfl, -⟩ :=
      sentAt_of_split split
    have known : (after { config } before).prior.isSome = true := by
      rcases event_cases events with ⟨other, -⟩ | ⟨other, -⟩ | ⟨-, known⟩
      · rw [other] at code
        contradiction
      · rw [other] at code
        contradiction
      · exact known
    obtain ⟨earlier, document, member, documentCode, between⟩ := grounded_prior rfl known
    refine ⟨earlier, document, List.mem_append_left _ member, documentCode, ?_⟩
    rw [List.take_left]
    exact between
  case ticks =>
    intro operations source root now
    have accords := accords_tick (after { config } operations) source root now
    rw [config_after] at accords
    exact accords
  case prior => exact prior_iff_hasCaptured rfl

end SessionReplay.Session

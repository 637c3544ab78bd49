import SessionReplay.Proofs.Capture.Issuing
import SessionReplay.Proofs.Session.Run
import SessionReplay.Proofs.Wire.Playing

/-!
A player that follows a session. After each tick that captures something, it holds what a full
snapshot of the last document describes, and no event is about a node that it does not have. This
goes for every run if and only if the families of the texts are legible: a style is sent whole as
a text, later changes of it property by property, and a family is all that a text can lose.
-/

namespace SessionReplay.Session

open SessionReplay.Identity (Counted Registry)
open SessionReplay.Wire (Item Page consume consumeAll)

/-- Every family that a tick meets is one of these. -/
def Operation.SetsIn (families : String → Prop) : Operation → Prop
  | tick source root _ => source.SetsIn families root
  | _ => True

/-- A player with this page takes in all that a run sends, and after each tick that captures it
holds what a full snapshot would describe. -/
def Faithful (session : Session) (page : Option Page) : List Operation → Prop
  | [] => True
  | operation :: operations =>
      ∃ next, consumeAll page (session.step operation).output.events = some next ∧
        (session.isCapturing → operation.isTick →
          ∃ tree, (session.step operation).after.prior = some tree ∧
            next = some (Wire.read (session.config.encoder.encodeTree tree))) ∧
        Faithful (session.step operation).after next operations

/-- A document as it is captured and as a player can hold it. -/
structure Sound (encoder : Wire.Encoder) (tree : Tree Node) : Prop where
  drawing : Capture.Drawing encoder.maxDepth.toNat tree
  distinct : (Document.ids tree).Nodup

def Legible (tree : Tree Node) : Prop := ∀ node ∈ tree.preorder, node.toFace.Legible

section Snapshots

variable {config : Config} {tree : Tree Node}

theorem read_legible (config : Config) (deep : 1 ≤ config.encoder.maxDepth)
    (sound : Sound config.encoder tree) (legible : Legible tree) :
    Wire.read (config.encoder.encodeTree tree) = tree.map (config.encoder.item id) := by
  rw [config.encoder.read_encodeTree sound.drawing (Nat.le_refl _) deep]
  exact Tree.map_congr fun node member => config.encoder.item_reread (legible node member)

theorem consume_snapshot (page : Option Page) (tick : UInt64) (now : Timestamp)
    (reason : Trace.Reason) :
    consumeAll page (snapshot config tick now reason tree).2.events =
      some (some (Wire.read (config.encoder.encodeTree tree))) := rfl

theorem levels_settings (deep : 1 ≤ config.encoder.maxDepth) :
    config.settings.limits.maxDepth.toNat - 1 + 1 ≤ config.encoder.maxDepth.toNat := by
  have some : 1 ≤ config.encoder.maxDepth.toNat := deep
  unfold Config.settings
  dsimp only
  split
  case isTrue => omega
  case isFalse less =>
    rw [UInt32.lt_iff_toNat_lt] at less
    omega

theorem sound_capture (config : Config) (deep : 1 ≤ config.encoder.maxDepth)
    {source : View.Introspector} {registry : Registry} {root : ViewHandle} {tick : UInt64}
    (counted : registry.exhausted = false → Counted registry) (once : source.ReachesOnce root)
    (left : (Capture.capture config.settings source registry root tick).registry.exhausted =
      false) :
    Sound config.encoder (Capture.capture config.settings source registry root tick).tree where
  drawing := Capture.drawing_capture.mono (levels_settings deep)
  distinct := Capture.ids_capture_nodup counted once left

end Snapshots

/-- What a player holds of the last document, and what the session knows of its nodes. -/
structure Holding (encoder : Wire.Encoder) (registry : Registry) (page : Option Page)
    (tree : Tree Node) : Prop where
  sound : Sound encoder tree
  legible : Legible tree
  held : page = some (tree.map (encoder.item id))
  known : ∀ key id, registry.get? key = some id → id ∈ Document.ids tree

structure InStep (session : Session) (page : Option Page) : Prop where
  counted : session.registry.exhausted = false → Counted session.registry
  holding : ∀ tree, session.prior = some tree →
    Holding session.config.encoder session.registry page tree

section Steps

variable {config : Config} {page : Option Page} {tree : Tree Node}

/-- An increment has the effect of its records, also when they leave nothing to send. -/
theorem consume_increment (config : Config) {tick : UInt64} {now : Timestamp} {previous : Tree Node}
    {records : List Record} (held : page = some (previous.map (config.encoder.item id)))
    (played : (previous.map (config.encoder.item id)).play Item.id
      (config.encoder.mutationOf records).edits = some (tree.map (config.encoder.item id)))
    (whole : config.maxMutations < records.length →
      Wire.read (config.encoder.encodeTree tree) = tree.map (config.encoder.item id)) :
    consumeAll page (increment config tick now records tree).2.events =
      some (some (tree.map (config.encoder.item id))) := by
  have still : (config.encoder.mutationOf records).edits = [] →
      consumeAll page [] = some (some (tree.map (config.encoder.item id))) := by
    intro none
    rw [none] at played
    rw [held, Option.some.inj played]
    rfl
  unfold increment
  dsimp only
  split
  case isTrue none =>
    apply still
    rw [List.isEmpty_iff.mp none]
    rfl
  case isFalse =>
    split
    case isTrue many =>
      rw [← whole many]
      rfl
    case isFalse =>
      split
      case isTrue none =>
        apply still
        change (config.encoder.mutationOf records).isEmpty = true at none
        simp only [Wire.Mutation.isEmpty, Bool.and_eq_true, List.isEmpty_iff] at none
        obtain ⟨⟨⟨adds, removes⟩, texts⟩, attributes⟩ := none
        simp only [Wire.Mutation.edits, Wire.Mutation.removing, Wire.Mutation.adding,
          Wire.Mutation.rewriting, Wire.Mutation.resetting, adds, removes, texts, attributes,
          List.map_nil, List.append_nil]
      case isFalse =>
        change consumeAll page [config.encoder.encodeRecords records now] = _
        have consumed : consume page (config.encoder.encodeRecords records now) =
            some (some (tree.map (config.encoder.item id))) := by
          rw [held]
          exact congrArg (Option.map some) played
        rw [consumeAll, List.foldlM_cons, consumed]
        rfl

theorem consume_send {tick : UInt64} {now : Timestamp} {reason : Trace.Reason}
    {prior : Option (Tree Node)} (deep : 1 ≤ config.encoder.maxDepth)
    (sound : Sound config.encoder tree) (legible : Legible tree)
    (held : ∀ previous, prior = some previous → Sound config.encoder previous ∧
      page = some (previous.map (config.encoder.item id))) :
    consumeAll page (send config tick now prior reason tree).2.events =
      some (some (tree.map (config.encoder.item id))) := by
  have whole := read_legible config deep sound legible
  unfold send
  split
  case h_1 => rw [consume_snapshot, whole]
  case h_2 previous =>
    obtain ⟨previousSound, shown⟩ := held previous rfl
    split
    case h_1 => rw [consume_snapshot, whole]
    case h_2 records compared =>
      apply consume_increment config shown _ (fun _ => whole)
      apply config.encoder.play_mutationOf compared previousSound.distinct sound.distinct
        previousSound.drawing sound.drawing (Nat.le_refl _)
      intro parent next subtree member node inside
      obtain ⟨child, childMember, below⟩ := Document.inside_of_added compared member
      exact legible node ((Tree.Inside.of_child childMember below).preorder_sublist.subset inside)

end Steps

variable {session : Session} {page : Option Page}

theorem holding_capture (deep : 1 ≤ session.config.encoder.maxDepth)
    {source : View.Introspector} {registry : Registry} {root : ViewHandle} {tick : UInt64}
    (counted : registry.exhausted = false → Counted registry) (once : source.ReachesOnce root)
    (set : source.SetsIn Style.LegibleValue root)
    (left : (Capture.capture session.config.settings source registry root tick).registry.exhausted =
      false) :
    let captured := Capture.capture session.config.settings source registry root tick
    Holding session.config.encoder captured.registry
      (some (captured.tree.map (session.config.encoder.item id))) captured.tree where
  sound := sound_capture _ deep counted once left
  legible := Capture.legible_capture set
  held := rfl
  known _ _ given := Capture.mem_ids_capture counted given

theorem tick_capture (session : Session) (source : View.Introspector) (root : ViewHandle)
    (now : Timestamp) (capturing : session.isCapturing = true)
    (left : (Capture.capture session.config.settings source session.registry root
      (session.ticks + 1)).registry.exhausted = false) :
    let captured := Capture.capture session.config.settings source session.registry root
      (session.ticks + 1)
    (session.tick source root now).2.1.events = (send session.config (session.ticks + 1) now
        session.prior .noPriorTree captured.tree).2.events ∧
      (session.tick source root now).2.2 =
        { session with
          ticks := session.ticks + 1
          registry := captured.registry
          prior := some captured.tree } := by
  unfold tick
  rw [if_pos capturing]
  dsimp only
  rw [left, if_neg Bool.false_ne_true]
  exact ⟨rfl, rfl⟩

/-- A tick that captures brings the player to the new document. -/
theorem consume_tick {source : View.Introspector} {root : ViewHandle} (now : Timestamp)
    (inStep : InStep session page) (deep : 1 ≤ session.config.encoder.maxDepth)
    (once : source.ReachesOnce root) (set : source.SetsIn Style.LegibleValue root)
    (left : (session.tick source root now).2.2.registry.exhausted = false)
    (capturing : session.isCapturing = true) :
    ∃ tree, (session.tick source root now).2.2.prior = some tree ∧
      Counted (session.tick source root now).2.2.registry ∧
      Holding session.config.encoder (session.tick source root now).2.2.registry
        (some (tree.map (session.config.encoder.item id))) tree ∧
      consumeAll page (session.tick source root now).2.1.events =
        some (some (tree.map (session.config.encoder.item id))) := by
  unfold tick at left ⊢
  rw [if_pos capturing] at left ⊢
  dsimp only at left ⊢
  split
  case isTrue exhausted =>
    -- The capture is made again with a new registry, and what was held before no longer counts.
    rw [if_pos exhausted] at left
    dsimp only at left
    have fresh : ∀ registry : Registry, registry.reset.exhausted = false →
        Counted registry.reset := fun _ _ => Registry.counted_startingAt _
    have holding := holding_capture deep (fresh _) once set left
    refine ⟨_, rfl, Capture.counted_capture (fresh _) left, holding, ?_⟩
    apply consume_send deep holding.sound holding.legible
    intro previous absent
    contradiction
  case isFalse remaining =>
    rw [if_neg remaining] at left
    dsimp only at left
    have holding := holding_capture deep inStep.counted once set left
    refine ⟨_, rfl, Capture.counted_capture inStep.counted left, holding, ?_⟩
    apply consume_send deep holding.sound holding.legible
    intro previous before
    have held := inStep.holding previous before
    exact ⟨held.sound, held.held⟩

/-- The player has every node that a pointer can refer to. -/
theorem holds_target (inStep : InStep session page) {view : ViewHandle} {id : NodeId}
    (target : session.target? view = some id) : Wire.holds page (.node id) = true := by
  unfold target? at target
  split at target
  case isTrue active =>
    rw [Bool.and_eq_true] at active
    obtain ⟨tree, last⟩ := Option.isSome_iff_exists.mp active.2
    have held := inStep.holding tree last
    rw [held.held, Wire.holds, Option.any_some, decide_eq_true_eq,
      Document.keys_map _ (session.config.encoder.id_item _)]
    exact List.mem_map_of_mem (held.known _ _ target)
  case isFalse => contradiction

theorem consume_pointer (inStep : InStep session page) (kind : Wire.PointerKind)
    (view : ViewHandle) (place : Point) (now : Timestamp) :
    consumeAll page (session.pointer kind view place now).2.events = some page := by
  unfold pointer
  split
  case h_1 id target =>
    have present := holds_target inStep target
    change consumeAll page [Wire.encodePointer kind id place now] = some page
    rw [consumeAll, List.foldlM_cons]
    simp only [consume, Wire.encodePointer, present, if_true]
    rfl
  case h_2 => rfl

theorem consume_touch (inStep : InStep session page) (touches : List Touch) (now : Timestamp) :
    consumeAll page (session.touch touches now).2.events = some page := by
  unfold touch
  dsimp only
  split
  case isTrue => rfl
  case isFalse =>
    have present : ((touches.filterMap (Touch.sample? session)).map fun sample =>
        (⟨.node sample.target, sample.place, sample.time.offset now⟩ : Wire.TouchPosition)).all
          (fun position => Wire.holds page position.id) = true := by
      rw [List.all_map, List.all_eq_true]
      intro sample member
      obtain ⟨touch, -, made⟩ := List.mem_filterMap.mp member
      obtain ⟨id, target, rfl⟩ := Option.map_eq_some_iff.mp made
      exact holds_target inStep target
    change consumeAll page [Wire.encodeTouch _ now] = some page
    rw [consumeAll, List.foldlM_cons]
    simp only [consume, Wire.encodeTouch, present, if_true]
    rfl

/-- After any operation the player is in step again. -/
theorem inStep_step {operation : Operation} (inStep : InStep session page)
    (deep : 1 ≤ session.config.encoder.maxDepth) (once : operation.ReachesOnce)
    (set : operation.SetsIn Style.LegibleValue)
    (left : (session.step operation).after.registry.exhausted = false) :
    ∃ next, consumeAll page (session.step operation).output.events = some next ∧
      (session.isCapturing → operation.isTick →
        ∃ tree, (session.step operation).after.prior = some tree ∧
          next = some (Wire.read (session.config.encoder.encodeTree tree))) ∧
      InStep (session.step operation).after next := by
  have nothing : ∀ after : Session, after.prior = none →
      (after.registry.exhausted = false → Counted after.registry) → InStep after page := by
    intro after forgotten counted
    constructor
    · exact counted
    · intro tree last
      rw [forgotten] at last
      contradiction
  cases operation with
  | start now =>
      refine ⟨page, rfl, nofun, ?_⟩
      change InStep (session.start now) page
      unfold start
      split
      case isTrue => exact inStep
      case isFalse => exact nothing _ rfl inStep.counted
  | stop => exact ⟨page, rfl, nofun, nothing _ rfl inStep.counted⟩
  | reset =>
      exact ⟨page, rfl, nofun, nothing _ rfl fun _ => Registry.counted_startingAt _⟩
  | pointer kind view place now =>
      exact ⟨page, consume_pointer inStep kind view place now, nofun, inStep⟩
  | touch touches now => exact ⟨page, consume_touch inStep touches now, nofun, inStep⟩
  | tick source root now =>
      by_cases capturing : session.isCapturing
      · obtain ⟨tree, last, counted, holding, consumed⟩ :=
          consume_tick now inStep deep once set left capturing
        refine ⟨_, consumed, ?_, ?_⟩
        · intro _ _
          exact ⟨tree, last, congrArg some (read_legible _ deep holding.sound holding.legible).symm⟩
        · have config := config_step session (.tick source root now)
          constructor
          · intro _
            exact counted
          · intro other found
            have same : some tree = some other := last.symm.trans found
            cases same
            rw [config]
            exact holding
      · have idle : session.tick source root now = (.idle, {}, session) := by
          unfold tick
          rw [if_neg capturing]
        refine ⟨page, ?_, fun active => absurd active capturing, ?_⟩
        · change consumeAll page (session.tick source root now).2.1.events = some page
          rw [idle]
          rfl
        · change InStep (session.tick source root now).2.2 page
          rw [idle]
          exact inStep

theorem faithful_of_inStep {operations : List Operation} (inStep : InStep session page)
    (deep : 1 ≤ session.config.encoder.maxDepth)
    (once : ∀ operation ∈ operations, operation.ReachesOnce)
    (set : ∀ operation ∈ operations, operation.SetsIn Style.LegibleValue)
    (left : ∀ step ∈ session.run operations, step.after.registry.exhausted = false) :
    session.Faithful page operations := by
  induction operations generalizing session page with
  | nil => trivial
  | cons operation operations induction =>
      obtain ⟨firstOnce, onceLater⟩ := List.forall_mem_cons.mp once
      obtain ⟨firstSet, setLater⟩ := List.forall_mem_cons.mp set
      obtain ⟨firstLeft, leftLater⟩ := List.forall_mem_cons.mp left
      obtain ⟨next, consumed, shown, after⟩ := inStep_step inStep deep firstOnce firstSet firstLeft
      refine ⟨next, consumed, shown, induction after ?_ onceLater setLater leftLater⟩
      rw [config_step]
      exact deep

/-- A player follows every run in which all families are legible. -/
theorem faithful_of_legible {config : Config} (page : Option Page) {operations : List Operation}
    (deep : 1 ≤ config.encoder.maxDepth)
    (once : ∀ operation ∈ operations, operation.ReachesOnce)
    (set : ∀ operation ∈ operations, operation.SetsIn Style.LegibleValue)
    (left : ∀ step ∈ Session.run { config } operations, step.after.registry.exhausted = false) :
    Session.Faithful { config } page operations := by
  apply faithful_of_inStep _ deep once set left
  constructor
  · intro _
    exact Registry.counted_startingAt _
  · intro tree none
    contradiction

end SessionReplay.Session

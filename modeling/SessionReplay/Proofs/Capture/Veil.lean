import SessionReplay.Proofs.Capture.Numbering
import SessionReplay.Proofs.Capture.Reach
import SessionReplay.Wire.Encoder

/-!
A veil over masked content. It replaces the texts, the images and the sensitive attributes of the
views that are masked by others of the same length. What is captured through the veil is what is
captured without it, with the veil laid over the masked nodes.
-/

namespace SessionReplay

/-- A replacement of texts that keeps their lengths and does not make different texts the same. -/
structure Veil where
  replace : String → String
  injective : Function.Injective replace
  length_replace : ∀ text, (replace text).length = text.length

namespace Veil

variable (veil : Veil)

theorem replace_empty : veil.replace "" = "" := by
  rw [← String.length_eq_zero_iff, veil.length_replace]
  rfl

/-- The names of the attributes that hold content of the user. -/
def holdsContent (name : String) : Bool := Wire.Encoder.isSensitive name || name = "src"

def value (name value : String) : String :=
  if holdsContent name then veil.replace value else value

def attributes (attributes : Attributes) : Attributes := attributes.map veil.value

def kind : Kind → Kind
  | .document => .document
  | .element element => .element { element with attributes := veil.attributes element.attributes }
  | .text content isStyle => .text (veil.replace content) isStyle

def face (face : Face) : Face :=
  if face.masked then { face with kind := veil.kind face.kind } else face

def node (node : Node) : Node := { veil.face node.toFace with id := node.id }

def sighting (sighting : Capture.Sighting) : Capture.Sighting :=
  { sighting with face := veil.face sighting.face }

/-- The host with the veil over the content of some of its views. -/
def host (hidden : ViewHandle → Bool) (source : View.Introspector) : View.Introspector :=
  { source with
    text := fun view =>
      if hidden view then
        (source.text view).map (Option.map fun content =>
          { content with text := veil.replace content.text })
      else source.text view
    image := fun view =>
      if hidden view then
        (source.image view).map (Option.map fun image =>
          { source := veil.replace image.source, label := image.label.map veil.replace })
      else source.image view
    attributes := fun view =>
      if hidden view then
        (source.attributes view).map fun entry => (entry.1, veil.value entry.1 entry.2)
      else source.attributes view }

theorem value_plain {name : String} (plain : holdsContent name = false) (value : String) :
    veil.value name value = value := by
  rw [Veil.value, plain]
  rfl

theorem value_content {name : String} (content : holdsContent name = true) (value : String) :
    veil.value name value = veil.replace value := by
  rw [Veil.value, content]
  rfl

theorem injective_value (name : String) : Function.Injective (veil.value name) := by
  intro first second same
  unfold value at same
  split at same
  case isTrue => exact veil.injective same
  case isFalse => exact same

theorem getElem?_attributes (attributes : Attributes) (name : String) :
    (veil.attributes attributes)[name]? = attributes[name]?.map (veil.value name) :=
  Std.ExtTreeMap.getElem?_map

theorem attributes_injective : Function.Injective veil.attributes := by
  intro first second same
  apply Std.ExtTreeMap.ext_getElem?
  intro name
  have images := congrArg (·[name]?) same
  simp only [getElem?_attributes] at images
  exact Option.map_injective (veil.injective_value name) images

theorem attributes_empty : veil.attributes ∅ = ∅ := by
  apply Std.ExtTreeMap.ext_getElem?
  intro name
  rw [getElem?_attributes]
  simp

theorem attributes_insert (attributes : Attributes) (name value : String) :
    veil.attributes (attributes.insert name value) =
      (veil.attributes attributes).insert name (veil.value name value) := by
  apply Std.ExtTreeMap.ext_getElem?
  intro other
  simp only [getElem?_attributes, Std.ExtTreeMap.getElem?_insert]
  by_cases same : name = other
  · subst same
    simp
  · simp [same]

theorem attributes_insertMany (attributes : Attributes) (entries : List (String × String)) :
    veil.attributes (attributes.insertMany entries) =
      (veil.attributes attributes).insertMany
        (entries.map fun entry => (entry.1, veil.value entry.1 entry.2)) := by
  induction entries generalizing attributes with
  | nil => simp
  | cons entry entries induction =>
      obtain ⟨name, value⟩ := entry
      rw [List.map_cons, Std.ExtTreeMap.insertMany_cons, Std.ExtTreeMap.insertMany_cons, induction,
        attributes_insert]

theorem attributes_ofList (entries : List (String × String)) :
    veil.attributes (.ofList entries) =
      .ofList (entries.map fun entry => (entry.1, veil.value entry.1 entry.2)) := by
  rw [Std.ExtTreeMap.ofList_eq_insertMany_empty, Std.ExtTreeMap.ofList_eq_insertMany_empty,
    attributes_insertMany, attributes_empty]

@[simp]
theorem masked_face (face : Face) : (veil.face face).masked = face.masked := by
  unfold Veil.face
  split <;> rfl

@[simp]
theorem frame_face (face : Face) : (veil.face face).frame = face.frame := by
  unfold Veil.face
  split <;> rfl

end Veil

namespace Capture

variable {veil : Veil} {hidden : ViewHandle → Bool}

/-- The picture of a masked view, with the veil over it. -/
def Portrait.veiled (veil : Veil) (portrait : Portrait) : Portrait :=
  { portrait with
    attributes := veil.attributes portrait.attributes
    text := portrait.text.map veil.replace }

theorem declaredAttributes_veil (entries : List (String × String)) :
    declaredAttributes (entries.map fun entry => (entry.1, veil.value entry.1 entry.2)) =
      veil.attributes (declaredAttributes entries) := by
  rw [declaredAttributes, declaredAttributes, veil.attributes_ofList, List.filter_map]
  rfl

theorem declaredStyle_veil (entries : List (String × String)) :
    declaredStyle (entries.map fun entry => (entry.1, veil.value entry.1 entry.2)) =
      declaredStyle entries := by
  have filtered : (entries.map fun entry => (entry.1, veil.value entry.1 entry.2)).filter
      (·.1 = "style") = entries.filter (·.1 = "style") := by
    rw [List.filter_map]
    conv_rhs => rw [← List.map_id (entries.filter _)]
    apply List.map_congr_left
    intro entry member
    have named : entry.1 = "style" := by simpa using (List.mem_filter.mp member).2
    rw [veil.value_plain (named ▸ by decide)]
    rfl
  rw [declaredStyle, declaredStyle, filtered]

/-- The same survey through the veil. -/
def Surveyor.veiled (veil : Veil) (hidden : ViewHandle → Bool) (surveyor : Surveyor) : Surveyor :=
  { surveyor with source := veil.host hidden surveyor.source }

namespace Surveyor

variable {surveyor : Surveyor}

/-- A view without content shows the empty text, which the veil leaves as it is. -/
theorem getD_veiled (content : Option View.TextContent) :
    (content.map fun content => { content with text := veil.replace content.text }).getD {} =
      { content.getD {} with text := veil.replace (content.getD {}).text } := by
  cases content with
  | none =>
      have nothing := veil.replace_empty
      simp [nothing]
  | some content => rfl

theorem imageAttributes_veiled (image : Option View.Image) :
    imageAttributes (image.map fun image =>
        { source := veil.replace image.source, label := image.label.map veil.replace }) =
      (imageAttributes image).map fun entry => (entry.1, veil.value entry.1 entry.2) := by
  have src : Veil.holdsContent "src" = true := by decide
  have alt : Veil.holdsContent "alt" = true := by decide
  cases image with
  | none => rfl
  | some image =>
      cases label : image.label <;>
        simp [imageAttributes, label, veil.value_content src, veil.value_content alt]

theorem portrait_veiled (view : ViewHandle) (kind : View.Kind) :
    (surveyor.veiled veil hidden).portrait view kind =
      if hidden view then (surveyor.portrait view kind).map (Portrait.veiled veil)
      else surveyor.portrait view kind := by
  have value : Veil.holdsContent "value" = true := by decide
  have type : Veil.holdsContent "type" = false := by decide
  by_cases masked : hidden view = true
  · rw [if_pos masked]
    cases kind with
    | container =>
        simp only [portrait, veiled, Veil.host, masked, if_true, declaredAttributes_veil,
          declaredStyle_veil]
        rfl
    | unknown name =>
        have nothing := veil.attributes_empty
        simp [portrait, Portrait.veiled, Except.map, nothing]
    | text =>
        simp only [portrait, veiled, Veil.host, masked, if_true, declaredAttributes_veil,
          declaredStyle_veil]
        cases surveyor.source.text view with
        | error cause => rfl
        | ok content =>
            simp only [Except.map, bind, Except.bind, getD_veiled]
            rfl
    | input =>
        simp only [portrait, veiled, Veil.host, masked, if_true, declaredAttributes_veil,
          declaredStyle_veil]
        cases surveyor.source.text view with
        | error cause => rfl
        | ok content =>
            simp only [Except.map, bind, Except.bind, pure, Except.pure, getD_veiled,
              Portrait.veiled, veil.attributes_insert, veil.value_content value,
              veil.value_plain type]
            rfl
    | image =>
        simp only [portrait, veiled, Veil.host, masked, if_true, declaredAttributes_veil,
          declaredStyle_veil]
        cases surveyor.source.image view with
        | error cause => rfl
        | ok image =>
            simp only [Except.map, bind, Except.bind, pure, Except.pure, imageAttributes_veiled,
              Portrait.veiled, veil.attributes_insertMany]
            rfl
  · rw [if_neg masked]
    cases kind <;> simp only [portrait, veiled, Veil.host, masked] <;> rfl

/-- The veil lies over the views that are masked. -/
def Agrees (hidden : ViewHandle → Bool) (tree : Tree Sighting) : Prop :=
  ∀ sighting ∈ tree.preorder, sighting.key.role = .view →
    hidden sighting.key.view = sighting.face.masked

theorem Agrees.child {sighting : Sighting} {children : List (Tree Sighting)} {child : Tree Sighting}
    (agrees : Agrees hidden (.node sighting children)) (member : child ∈ children) :
    Agrees hidden child :=
  fun below inside => agrees below (Tree.mem_preorder_of_child member inside)

theorem plainFace_veiled (place : Placement) (frame : Rect) (paint : Paint) (masked : Bool)
    {attributes : Attributes} (still : veil.attributes attributes = attributes) :
    veil.face (plainFace place frame paint masked attributes) =
      plainFace place frame paint masked attributes := by
  unfold Veil.face
  split
  case isTrue => simp only [plainFace, Veil.kind, still]
  case isFalse => rfl

theorem terminal_veiled (limit : Trace.Limit) (depth : Nat) (place : Placement)
    (inherited : List Masking) (view : ViewHandle) (tally : Tally) :
    (surveyor.veiled veil hidden).terminal limit depth place inherited view tally =
      ((surveyor.terminal limit depth place inherited view tally).1.map veil.sighting,
        (surveyor.terminal limit depth place inherited view tally).2) := by
  have mark : Veil.holdsContent truncationMark = false := by decide
  have still : veil.attributes ((∅ : Attributes).insert truncationMark "true") =
      (∅ : Attributes).insert truncationMark "true" := by
    rw [veil.attributes_insert, veil.attributes_empty, veil.value_plain mark]
  simp only [terminal, Tree.map_node, Veil.sighting, plainFace_veiled _ _ _ _ still]
  rfl

theorem placeholder_veiled (place : Placement) (inherited : List Masking) (view : ViewHandle)
    (frame : Rect) (paint : Paint) (reports : List Report) (tally : Tally) :
    (surveyor.veiled veil hidden).placeholder place inherited view frame paint reports tally =
      ((surveyor.placeholder place inherited view frame paint reports tally).1.map veil.sighting,
        (surveyor.placeholder place inherited view frame paint reports tally).2) := by
  simp only [placeholder, Tree.map_node, Veil.sighting,
    plainFace_veiled _ _ _ _ veil.attributes_empty]
  rfl

theorem siblings_veiled {visit stop visitVeiled stopVeiled : ViewHandle → Tally →
      Tree Sighting × Tally}
    (visited : ∀ view tally, Agrees hidden (visit view tally).1 →
      visitVeiled view tally = ((visit view tally).1.map veil.sighting, (visit view tally).2))
    (stopped : ∀ view tally,
      stopVeiled view tally = ((stop view tally).1.map veil.sighting, (stop view tally).2))
    (views : List ViewHandle) (tally : Tally)
    (agrees : ∀ tree ∈ (surveyor.siblings visit stop views tally).1, Agrees hidden tree) :
    (surveyor.veiled veil hidden).siblings visitVeiled stopVeiled views tally =
      ((surveyor.siblings visit stop views tally).1.map (Tree.map veil.sighting),
        (surveyor.siblings visit stop views tally).2) := by
  induction views generalizing tally with
  | nil => rfl
  | cons view views induction =>
      simp only [siblings] at agrees ⊢
      by_cases full : surveyor.limits.maxNodes.toNat ≤ tally.nodes
      · have fullVeiled : (surveyor.veiled veil hidden).limits.maxNodes.toNat ≤ tally.nodes := full
        rw [if_pos full, if_pos fullVeiled, stopped]
        rfl
      · have fullVeiled : ¬(surveyor.veiled veil hidden).limits.maxNodes.toNat ≤ tally.nodes := full
        rw [if_neg full] at agrees
        obtain ⟨first, others⟩ := List.forall_mem_cons.mp agrees
        rw [if_neg full, if_neg fullVeiled, visited view tally first, induction _ others]
        rfl

theorem textNodes_veiled (view : ViewHandle) (face : Face) (text : Option String) :
    textNodes view (veil.face face) (if face.masked then text.map veil.replace else text) =
      (textNodes view face text).map (Tree.map veil.sighting) := by
  cases text with
  | none => cases face.masked <;> rfl
  | some content =>
      cases masked : face.masked <;>
        simp [textNodes, Veil.sighting, Veil.face, Veil.kind, masked]

/-- A view that answers does so through the veil, and is pictured as it shows it. -/
theorem answer_veiled {place : Placement} {inherited : List Masking} {view : ViewHandle}
    {kind : View.Kind} {portrait : Portrait} (answered : surveyor.portrait view kind = .ok portrait)
    (hides : hidden view = (surveyor.elementFace place inherited view kind portrait).masked) :
    ∃ shown, (surveyor.veiled veil hidden).portrait view kind = .ok shown ∧
      (surveyor.veiled veil hidden).elementFace place inherited view kind shown =
        veil.face (surveyor.elementFace place inherited view kind portrait) ∧
      shown.text = if (surveyor.elementFace place inherited view kind portrait).masked
        then portrait.text.map veil.replace else portrait.text := by
  rw [portrait_veiled view kind, answered, hides]
  by_cases masked : (surveyor.elementFace place inherited view kind portrait).masked
  · rw [if_pos masked, if_pos masked, Veil.face, if_pos masked]
    exact ⟨portrait.veiled veil, rfl, rfl, rfl⟩
  · rw [if_neg masked, if_neg masked, Veil.face, if_neg masked]
    exact ⟨portrait, rfl, rfl, rfl⟩

theorem inspected_veiled {shown portrait : Portrait} {masked : Bool} (depth : Nat)
    (kind : View.Kind) (tally : Tally)
    (text : shown.text = if masked then portrait.text.map veil.replace else portrait.text) :
    inspected depth kind shown tally = inspected depth kind portrait tally := by
  have texts : shown.text.isNone = portrait.text.isNone := by
    rw [text]
    split <;> simp
  rw [inspected, inspected, texts]

theorem visit_veiled (levels depth : Nat) (place : Placement) (inherited : List Masking)
    (view : ViewHandle) (tally : Tally)
    (agrees : Agrees hidden (surveyor.visit levels depth place inherited view tally).1) :
    (surveyor.veiled veil hidden).visit levels depth place inherited view tally =
      ((surveyor.visit levels depth place inherited view tally).1.map veil.sighting,
        (surveyor.visit levels depth place inherited view tally).2) := by
  induction levels generalizing depth place inherited view tally with
  | zero => exact terminal_veiled _ _ _ _ _ _
  | succ levels induction =>
      cases told : surveyor.source.kind view with
      | error cause =>
          have toldVeiled : (surveyor.veiled veil hidden).source.kind view = .error cause := told
          simp only [visit, told, toldVeiled]
          exact placeholder_veiled _ _ _ _ _ _ _
      | ok kind =>
          have toldVeiled : (surveyor.veiled veil hidden).source.kind view = .ok kind := told
          cases answered : surveyor.portrait view kind with
          | error cause =>
              have unanswered :
                  (surveyor.veiled veil hidden).portrait view kind = .error cause := by
                rw [portrait_veiled, answered]
                split <;> rfl
              simp only [visit, told, toldVeiled, answered, unanswered]
              exact placeholder_veiled _ _ _ _ _ _ _
          | ok portrait =>
              rw [visit_answered told answered] at agrees ⊢
              -- The element itself is among what was seen, so the veil is where it is masked.
              have hides : hidden view =
                  (surveyor.elementFace place inherited view kind portrait).masked :=
                agrees _ (Tree.data_mem_preorder _) rfl
              obtain ⟨shown, answeredVeiled, faceVeiled, textVeiled⟩ :=
                answer_veiled answered hides
              have belowVeiled : (surveyor.veiled veil hidden).below levels depth place inherited
                  view kind shown tally =
                  ((surveyor.below levels depth place inherited view kind portrait tally).1.map
                    (Tree.map veil.sighting),
                  (surveyor.below levels depth place inherited view kind portrait tally).2) := by
                unfold below
                rw [inspected_veiled depth kind tally textVeiled]
                apply siblings_veiled
                · exact fun child tally agrees => induction _ _ _ child tally agrees
                · exact fun child tally => terminal_veiled _ _ _ _ child tally
                · intro tree member
                  exact agrees.child (List.mem_append_right _ member)
              rw [visit_answered toldVeiled answeredVeiled, faceVeiled, textVeiled, belowVeiled,
                textNodes_veiled]
              simp only [Tree.map_node, List.map_append]
              rfl

/-- Whether the element of a view comes out masked in the survey from a root. -/
def hides (surveyor : Surveyor) (root view : ViewHandle) : Bool :=
  (surveyor.survey root).1.preorder.any fun sighting =>
    sighting.key = ⟨view, .view⟩ && sighting.face.masked

theorem survey_agrees {root : ViewHandle} (once : surveyor.source.ReachesOnce root) :
    Agrees (surveyor.hides root) (surveyor.survey root).1 := by
  intro sighting member role
  have key : sighting.key = ⟨sighting.key.view, .view⟩ := by rw [← role]
  rw [hides, Bool.eq_iff_iff, List.any_eq_true]
  constructor
  · rintro ⟨other, inside, found⟩
    simp only [Bool.and_eq_true, decide_eq_true_eq] at found
    have same := List.inj_on_of_nodup_map (survey_keys_nodup once) inside member
      (found.1.trans key.symm)
    rw [← same]
    exact found.2
  · intro masked
    exact ⟨sighting, member, by simp [← key, masked]⟩

theorem survey_veiled {root : ViewHandle} (once : surveyor.source.ReachesOnce root) :
    (surveyor.veiled veil (surveyor.hides root)).survey root =
      ((surveyor.survey root).1.map veil.sighting, (surveyor.survey root).2) := by
  have agrees := (survey_agrees once).child List.mem_cons_self
  have below : (surveyor.veiled veil (surveyor.hides root)).visit
      (surveyor.limits.maxDepth.toNat - 1) 1
      ⟨.identity, (answerOr .zero .geometry (surveyor.source.frame root)).1.sanitize⟩ [] root
      (Tally.count 0 {}) = _ := visit_veiled _ _ _ _ _ _ agrees
  unfold survey
  simp only [Tree.map_node, List.map_cons, List.map_nil]
  exact Prod.ext (congrArg (fun child => Tree.node _ [child.1]) below) (congrArg (·.2) below)

end Surveyor

/-- A capture through the veil differs in what it shows of the masked nodes alone. -/
theorem capture_veiled (veil : Veil) (settings : Settings) (source : View.Introspector)
    (registry : Identity.Registry) {root : ViewHandle} (tick : UInt64)
    (once : source.ReachesOnce root) :
    capture settings (veil.host ((settings.surveyor source).hides root) source) registry root tick =
      { capture settings source registry root tick with
        tree := (capture settings source registry root tick).tree.map veil.node } := by
  have surveyed : (settings.surveyor (veil.host ((settings.surveyor source).hides root)
      source)).survey root = (((settings.surveyor source).survey root).1.map veil.sighting,
        ((settings.surveyor source).survey root).2) := Surveyor.survey_veiled once
  have numbered : (((settings.surveyor source).survey root).1.map veil.sighting).mapAccum number
      registry.beginTick =
      ((((settings.surveyor source).survey root).1.mapAccum number registry.beginTick).1.map
        veil.node, (((settings.surveyor source).survey root).1.mapAccum number
          registry.beginTick).2) := by
    rw [Tree.map_then_mapAccum]
    exact Tree.mapAccum_map number veil.node _ _
  have reported : (((settings.surveyor source).survey root).1.map veil.sighting).preorder.flatMap
      (Sighting.events tick) =
      ((settings.surveyor source).survey root).1.preorder.flatMap (Sighting.events tick) := by
    rw [Tree.preorder_map, List.flatMap_map]
    rfl
  simp only [Settings.surveyor] at surveyed numbered reported
  simp only [capture, Settings.surveyor, surveyed, numbered, reported]

end Capture

end SessionReplay

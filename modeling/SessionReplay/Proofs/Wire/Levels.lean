import SessionReplay.Proofs.Wire.Outline

/-!
How many levels what is sent of a document has. Nothing is sent from below the deepest level, with
one exception: the element around a text takes up a level, and the text goes with it even when no
level is left for it.
-/

namespace SessionReplay.Wire

open SessionReplay.Document (topTexts topTexts_document topTexts_other)

def Node.children : Node → List Node
  | .document _ children => children
  | .element _ _ _ children => children
  | .text .. => []

/-- A node, with the number of levels that it is below the top. -/
inductive Node.Lies (node : Node) : (level : Nat) → (top : Node) → Prop
  | itself : Lies node 0 node
  | inner {level : Nat} {child top : Node} (listed : child ∈ top.children)
      (lies : Lies node level child) : Lies node (level + 1) top

namespace Encoder

variable (encoder : Encoder)

theorem children_encodeNode_text {tree : Tree SessionReplay.Node} (text : tree.data.kind.isText)
    (depth : Nat) : (encoder.encodeNode depth tree).children = [] := by
  obtain ⟨data, children⟩ := tree
  cases kind : data.kind with
  | text content isStyle => simp only [encodeNode, kind, Node.children]
  | document => simp [Tree.data, kind, Kind.isText] at text
  | element element => simp [Tree.data, kind, Kind.isText] at text

theorem children_encodeNode_other {tree : Tree SessionReplay.Node}
    (other : tree.data.kind.isText = false) (depth : Nat) :
    (encoder.encodeNode depth tree).children =
      if encoder.maxDepth.toNat ≤ depth then []
      else tree.children.map (encoder.encodeNode (depth + 1)) := by
  obtain ⟨data, children⟩ := tree
  rw [← encodeNodes_eq_map]
  cases kind : data.kind with
  | text content isStyle => simp [Tree.data, kind, Kind.isText] at other
  | document => simp only [encodeNode, kind, Node.children, Tree.children, decide_eq_true_eq]
  | element element =>
      simp only [encodeNode, kind, Node.children, Tree.children, decide_eq_true_eq]

/-- Children are sent where a level is left for them. -/
theorem mem_children_encodeNode {tree : Tree SessionReplay.Node} {depth : Nat} {child : Node}
    (listed : child ∈ (encoder.encodeNode depth tree).children) :
    depth < encoder.maxDepth.toNat ∧
      ∃ below ∈ tree.children, child = encoder.encodeNode (depth + 1) below := by
  cases text : tree.data.kind.isText with
  | true =>
      rw [children_encodeNode_text encoder text] at listed
      contradiction
  | false =>
      rw [children_encodeNode_other encoder text] at listed
      split at listed
      case isTrue => contradiction
      case isFalse more =>
        obtain ⟨below, member, same⟩ := List.mem_map.mp listed
        exact ⟨Nat.lt_of_not_le more, below, member, same.symm⟩

/-- By induction on the way down: every step uses up one of the levels that are left. -/
theorem level_encodeNode {tree : Tree SessionReplay.Node} {depth level : Nat} {node : Node}
    (lies : node.Lies level (encoder.encodeNode depth tree)) :
    level ≤ encoder.maxDepth.toNat - depth := by
  induction level generalizing tree depth with
  | zero => exact Nat.zero_le _
  | succ level induction =>
      cases lies with
      | inner listed lies =>
          obtain ⟨more, below, -, rfl⟩ := encoder.mem_children_encodeNode listed
          have rest := induction lies
          omega

/-- Only a text can be too deep, inside the element around it. -/
theorem level_encodeTopChild {child : Tree SessionReplay.Node} {level : Nat} {node : Node}
    (lies : node.Lies level (encoder.encodeTopChild child)) :
    level ≤ encoder.maxDepth.toNat - 1 ∨
      level = 1 ∧ child.data.kind.isText ∧ node = encoder.encodeNode 2 child := by
  cases text : child.data.kind.isText with
  | true =>
      rw [encodeTopChild_text encoder text] at lies
      cases lies with
      | itself => exact .inl (Nat.zero_le _)
      | inner listed lies =>
          obtain rfl := List.mem_singleton.mp listed
          cases lies with
          | itself => exact .inr ⟨rfl, rfl, rfl⟩
          | inner listed _ =>
              rw [children_encodeNode_text encoder text] at listed
              contradiction
  | false =>
      rw [encodeTopChild_other encoder text] at lies
      exact .inl (encoder.level_encodeNode lies)

theorem children_encodeTree_document {tree : Tree SessionReplay.Node}
    (top : tree.data.kind = .document) : (encoder.encodeTree tree).children =
      if encoder.maxDepth = 0 then [] else tree.children.map encoder.encodeTopChild := by
  simp only [encodeTree, top, Node.children]

theorem level_encodeTree {tree : Tree SessionReplay.Node} {level : Nat} {node : Node}
    (lies : node.Lies level (encoder.encodeTree tree)) :
    level ≤ encoder.maxDepth.toNat ∨
      level = 2 ∧ encoder.maxDepth = 1 ∧ ∃ text ∈ topTexts tree, node = encoder.encodeNode 2 text := by
  by_cases top : tree.data.kind = .document
  · cases lies with
    | itself => exact .inl (Nat.zero_le _)
    | inner listed lies =>
        rw [children_encodeTree_document encoder top] at listed
        split at listed
        case isTrue => contradiction
        case isFalse deep =>
          have least : encoder.maxDepth.toNat ≠ 0 := fun none => deep (UInt32.toNat_inj.mp none)
          obtain ⟨child, member, rfl⟩ := List.mem_map.mp listed
          rcases encoder.level_encodeTopChild lies with shallow | ⟨rfl, text, rfl⟩
          · exact .inl (by omega)
          · by_cases room : 2 ≤ encoder.maxDepth.toNat
            · exact .inl room
            · have one : encoder.maxDepth.toNat = 1 := by omega
              refine .inr ⟨rfl, UInt32.toNat_inj.mp one, child, ?_, rfl⟩
              rw [topTexts_document top]
              exact List.mem_filter.mpr ⟨member, text⟩
  · rw [encodeTree_other encoder top] at lies
    exact .inl (encoder.level_encodeNode lies)

/-- The text directly below the document is sent two levels below it, if anything is. -/
theorem lies_topText {tree text : Tree SessionReplay.Node} (deep : encoder.maxDepth ≠ 0)
    (member : text ∈ topTexts tree) :
    (encoder.encodeNode 2 text).Lies 2 (encoder.encodeTree tree) := by
  by_cases top : tree.data.kind = .document
  · rw [topTexts_document top] at member
    obtain ⟨listed, isText⟩ := List.mem_filter.mp member
    have wrapped : encoder.encodeNode 2 text ∈ (encoder.encodeTopChild text).children := by
      rw [encodeTopChild_text encoder isText]
      exact List.mem_singleton_self _
    refine .inner ?_ (.inner wrapped .itself)
    rw [children_encodeTree_document encoder top, if_neg deep]
    exact List.mem_map_of_mem listed
  · rw [topTexts_other top] at member
    contradiction

theorem too_deep_iff {tree : Tree SessionReplay.Node} {level : Nat} {node : Node} :
    node.Lies level (encoder.encodeTree tree) ∧ encoder.maxDepth.toNat < level ↔
      level = 2 ∧ encoder.maxDepth = 1 ∧
        ∃ text ∈ topTexts tree, node = encoder.encodeNode 2 text := by
  constructor
  · rintro ⟨lies, deeper⟩
    exact (encoder.level_encodeTree lies).resolve_left (Nat.not_le_of_lt deeper)
  · rintro ⟨rfl, last, text, member, rfl⟩
    have deep : encoder.maxDepth ≠ 0 := by
      rw [last]
      decide
    refine ⟨encoder.lies_topText deep member, ?_⟩
    rw [last]
    decide

/-- All that is sent lies within the deepest level, unless that is the level below the document and
there are texts directly below the document. Then it is these texts that are too deep, each by one
level, and nothing else. -/
theorem within_maxDepth_iff (tree : Tree SessionReplay.Node) :
    ((∀ level node, Node.Lies node level (encoder.encodeTree tree) →
        level ≤ encoder.maxDepth.toNat) ↔
      ¬(encoder.maxDepth = 1 ∧ topTexts tree ≠ [])) ∧
    ∀ level node,
      Node.Lies node level (encoder.encodeTree tree) ∧ encoder.maxDepth.toNat < level ↔
        level = 2 ∧ encoder.maxDepth = 1 ∧
          ∃ text ∈ topTexts tree, node = encoder.encodeNode 2 text := by
  refine ⟨?_, fun level node => encoder.too_deep_iff⟩
  constructor
  · rintro within ⟨last, some⟩
    obtain ⟨text, member⟩ := List.exists_mem_of_ne_nil _ some
    obtain ⟨lies, deeper⟩ := encoder.too_deep_iff.mpr ⟨rfl, last, text, member, rfl⟩
    exact Nat.not_le_of_lt deeper (within 2 _ lies)
  · intro room level node lies
    by_contra deeper
    obtain ⟨-, last, text, member, -⟩ :=
      encoder.too_deep_iff.mp ⟨lies, Nat.lt_of_not_le deeper⟩
    exact room ⟨last, List.ne_nil_of_mem member⟩

end Encoder

end SessionReplay.Wire

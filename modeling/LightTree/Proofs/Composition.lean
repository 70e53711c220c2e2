import LightTree.Proofs.Creation
import LightTree.Proofs.Locality

/-!
# Lines are made of lines

A writer goes down a tree with one line and pushes token after token to its end. Whether a space
goes first depends on what is there by then. Pushing is associative, so it comes to the same as
joining the lines of the parts, with single spaces between those that are not empty.
-/

namespace LightTree

/-! ## Pushing tokens -/

/-- Adds a token to the end of a line, after a space unless the line is empty. An empty token leaves
the line alone. -/
def pushToken (line token : String) : String :=
  if token = "" then line else if line = "" then token else line ++ " " ++ token

@[simp] theorem pushToken_empty (line : String) : pushToken line "" = line := by
  simp [pushToken]

@[simp] theorem empty_pushToken (token : String) : pushToken "" token = token := by
  simp [pushToken, eq_comm]

theorem pushToken_of_ne {line token : String} (hline : line ≠ "") (htoken : token ≠ "") :
    pushToken line token = line ++ " " ++ token := by
  rw [pushToken, if_neg htoken, if_neg hline]

theorem pushToken_ne_empty {line : String} (hline : line ≠ "") (token : String) :
    pushToken line token ≠ "" := by
  by_cases htoken : token = ""
  · rwa [htoken, pushToken_empty]
  · rw [pushToken_of_ne hline htoken]
    simp

theorem pushToken_assoc (first second third : String) :
    pushToken (pushToken first second) third = pushToken first (pushToken second third) := by
  by_cases hfirst : first = ""
  · simp [hfirst]
  by_cases hsecond : second = ""
  · simp [hsecond]
  by_cases hthird : third = ""
  · simp [hthird]
  rw [pushToken_of_ne (pushToken_ne_empty hfirst second) hthird, pushToken_of_ne hfirst hsecond,
    pushToken_of_ne hfirst (pushToken_ne_empty hsecond third), pushToken_of_ne hsecond hthird]
  simp only [String.append_assoc]

@[simp] theorem wireLine_nil : wireLine [] = "" := rfl

theorem wireLine_cons (token : String) (tokens : List String) :
    wireLine (token :: tokens) = pushToken token (wireLine tokens) := by
  induction tokens generalizing token with
  | nil => by_cases h : token = "" <;> simp [wireLine, h]
  | cons next rest ih =>
      by_cases htoken : token = ""
      · rw [htoken, empty_pushToken, wireLine, wireLine, List.filter_cons_of_neg (by simp)]
      by_cases hnext : next = ""
      · rw [hnext, ih, empty_pushToken, ← ih, wireLine, wireLine,
          List.filter_cons_of_pos (by simpa using htoken), List.filter_cons_of_neg (by simp),
          List.filter_cons_of_pos (by simpa using htoken)]
      · have hrest : wireLine (next :: rest) ≠ "" := ih next ▸ pushToken_ne_empty hnext _
        rw [pushToken_of_ne htoken hrest, wireLine, wireLine,
          List.filter_cons_of_pos (by simpa using htoken),
          List.filter_cons_of_pos (by simpa using hnext), String.intercalate_cons_cons]

theorem wireLine_append (first second : List String) :
    wireLine (first ++ second) = pushToken (wireLine first) (wireLine second) := by
  induction first with
  | nil => simp
  | cons token rest ih => rw [List.cons_append, wireLine_cons, ih, wireLine_cons, pushToken_assoc]

/-- Tokens that are pushed one after another are pushed as one line. -/
theorem foldl_pushToken (line : String) (tokens : List String) :
    tokens.foldl pushToken line = pushToken line (wireLine tokens) := by
  induction tokens generalizing line with
  | nil => simp
  | cons token rest ih => rw [List.foldl_cons, ih, wireLine_cons, pushToken_assoc]

/-- The tokens of parts are joined part by part. -/
theorem wireLine_flatMap {α : Type} (parts : List α) (tokens : α → List String) :
    wireLine (parts.flatMap tokens) = wireLine (parts.map fun part ↦ wireLine (tokens part)) := by
  induction parts with
  | nil => rfl
  | cons part rest ih =>
      rw [List.flatMap_cons, wireLine_append, List.map_cons, wireLine_cons, ih]

namespace Tree

variable {tree : Tree} {id x y : FieldId} {n c : NodeId}

/-! ## Writing into one line -/

/-- Pushes the tokens of a field to a line, `depth` levels of owned fields deep. -/
def writeFieldWithin (tree : Tree) : Nat → String → FieldId → String
  | 0, line, _ => line
  | depth + 1, line, id =>
    match tree.field? id with
    | none => line
    | some field =>
      if !field.active then line
      else
        match field.value with
        | .scalar s => pushToken line s.token
        | .choice options chosen =>
          match options[chosen]? with
          | some option => pushToken line option.value
          | none => line
        | .list _ _ elements =>
          elements.flatten.foldl (tree.writeFieldWithin depth)
            (pushToken line (toString elements.length))
        | .gated _ inner => tree.writeFieldWithin depth line inner

def writeField (tree : Tree) (line : String) (id : FieldId) : String :=
  tree.writeFieldWithin (tree.fields.size + 1) line id

/-- Pushes the tokens of a node and the nodes below it to a line, `depth` levels deep. -/
def writeNodeWithin (tree : Tree) : Nat → String → NodeId → String
  | 0, line, _ => line
  | depth + 1, line, id =>
    match tree.node? id with
    | none => line
    | some node =>
      let line := node.fields.foldl tree.writeField (pushToken line node.kind.symbol)
      let line := if node.showsCount then pushToken line (toString node.children.length) else line
      node.children.foldl (tree.writeNodeWithin depth) line

def writeNode (tree : Tree) (line : String) (id : NodeId) : String :=
  tree.writeNodeWithin (tree.nodes.size + 1) line id

theorem writeFieldWithin_eq (depth : Nat) (line : String) (id : FieldId) :
    tree.writeFieldWithin depth line id =
      (tree.fieldTokensWithin depth id).foldl pushToken line := by
  induction depth generalizing line id with
  | zero => rfl
  | succ depth ih =>
      have hbelow : tree.writeFieldWithin depth = fun line id ↦
          (tree.fieldTokensWithin depth id).foldl pushToken line := by
        funext line id
        exact ih line id
      rw [writeFieldWithin, fieldTokensWithin]
      cases tree.field? id with
      | none => rfl
      | some field =>
          by_cases hactive : field.active = true
          · simp only [hactive, Bool.not_true, Bool.false_eq_true, if_false, hbelow]
            cases field.value with
            | scalar s => rfl
            | choice options chosen =>
                simp only
                cases options[chosen]? <;> rfl
            | list linked template elements =>
                simp only [List.foldl_cons, List.foldl_flatMap]
            | gated condition inner => rfl
          · simp [hactive]

theorem writeField_eq (line : String) (id : FieldId) :
    tree.writeField line id = pushToken line (tree.fieldLine id) := by
  rw [writeField, writeFieldWithin_eq, foldl_pushToken, fieldLine, fieldTokens]

theorem writeNodeWithin_eq (depth : Nat) (line : String) (id : NodeId) :
    tree.writeNodeWithin depth line id =
      (tree.nodeTokensWithin depth id).foldl pushToken line := by
  induction depth generalizing line id with
  | zero => rfl
  | succ depth ih =>
      have hbelow : tree.writeNodeWithin depth = fun line id ↦
          (tree.nodeTokensWithin depth id).foldl pushToken line := by
        funext line id
        exact ih line id
      have hfields : tree.writeField = fun line id ↦
          (tree.fieldTokens id).foldl pushToken line := by
        funext line id
        exact writeFieldWithin_eq _ line id
      rw [writeNodeWithin, nodeTokensWithin]
      cases tree.node? id with
      | none => rfl
      | some node =>
          simp only [List.cons_append, List.foldl_cons, List.foldl_append, List.foldl_flatMap,
            hbelow, hfields]
          cases node.showsCount <;> rfl

theorem writeNode_eq (line : String) (id : NodeId) :
    tree.writeNode line id = pushToken line (tree.nodeLine id) := by
  rw [writeNode, writeNodeWithin_eq, foldl_pushToken, nodeLine, nodeTokens]

/-! ## Parts send what they send alone -/

/-- A walk down from a field has levels to spare for what the field keeps. -/
theorem Tiered.fieldTokensWithin_part (h : tree.Tiered) (hy : y ∈ tree.parts x) :
    tree.fieldTokensWithin tree.fields.size y = tree.fieldTokens y := by
  by_cases hl : tree.Live y
  · have hsame : tree.Matches (fun _ ↦ True) tree := ⟨fun _ _ ↦ rfl, fun _ _ _ _ ↦ trivial⟩
    have hlt := h.card_keepers_lt ⟨hy, hl⟩
    exact hsame.fieldTokensWithin_eq h h (by omega) (by omega) trivial
  · rw [fieldTokens, fieldTokensWithin_of_not_live hl, fieldTokensWithin_of_not_live hl]

theorem Forest.nodeTokensWithin_child (h : tree.Forest) (hc : c ∈ tree.children n) :
    tree.nodeTokensWithin tree.nodes.size c = tree.nodeTokens c := by
  have hsame : tree.MatchesNodes tree.LiveNode tree := by
    refine ⟨fun n hn ↦ ?_, fun _ _ _ _ ↦ rfl, fun n c _ hc ↦ h.child_live hc⟩
    obtain ⟨node, hnode⟩ := liveNode_iff.1 hn
    exact ⟨node, node, hnode, hnode, rfl⟩
  have hlt := h.card_above_lt c n (h.mem_children_iff.1 hc)
  exact hsame.nodeTokensWithin_eq h h (by omega) (by omega) (h.child_live hc)

/-- The line of a field is that of what it shows. -/
theorem Tiered.fieldLine_eq (h : tree.Tiered) {field : Field} (hf : tree.field? id = some field) :
    tree.fieldLine id =
      if field.active then
        match field.value with
        | .scalar s => s.token
        | .choice options chosen => (options[chosen]?.map (·.value)).getD ""
        | .list _ _ elements =>
          wireLine (toString elements.length :: elements.flatten.map tree.fieldLine)
        | .gated _ inner => tree.fieldLine inner
      else "" := by
  have hpart : ∀ y ∈ field.value.parts,
      tree.fieldTokensWithin tree.fields.size y = tree.fieldTokens y := fun y hy ↦
    h.fieldTokensWithin_part (x := id) (by rwa [parts, read_of_some hf])
  rw [fieldLine, fieldTokens, fieldTokensWithin, hf]
  by_cases hactive : field.active = true
  · simp only [hactive, Bool.not_true, Bool.false_eq_true, if_false, if_true]
    cases hv : field.value with
    | scalar s => simp [wireLine_cons]
    | choice options chosen => cases hc : options[chosen]? <;> simp [hc, wireLine_cons]
    | list linked template elements =>
        rw [hv] at hpart
        have hflat : elements.flatten.flatMap (tree.fieldTokensWithin tree.fields.size) =
            elements.flatten.flatMap tree.fieldTokens := List.flatMap_congr hpart
        simp only [hflat, wireLine_cons, wireLine_flatMap]
        rfl
    | gated condition inner =>
        rw [hv] at hpart
        simp only [hpart inner (List.mem_singleton.2 rfl), fieldLine]
  · simp [hactive]

/-- The line of a node is made of its symbol, the lines of its fields, perhaps the number of its
children, and the lines of these. -/
theorem Forest.nodeLine_eq (h : tree.Forest) {node : Node} (hn : tree.node? n = some node) :
    tree.nodeLine n =
      wireLine (node.kind.symbol :: node.fields.map tree.fieldLine ++
        (if node.showsCount then [toString node.children.length] else []) ++
        node.children.map tree.nodeLine) := by
  have hbelow : node.children.flatMap (tree.nodeTokensWithin tree.nodes.size) =
      node.children.flatMap tree.nodeTokens :=
    List.flatMap_congr fun c hc ↦ h.nodeTokensWithin_child (n := n)
      (by rwa [children_eq_readNode, readNode_of_some hn])
  rw [nodeLine, nodeTokens, nodeTokensWithin, hn]
  simp only [hbelow, List.cons_append, wireLine_cons, wireLine_append, wireLine_flatMap]
  rfl

theorem showsCount_eq (node : Node) :
    node.showsCount = node.kind.maxChildren.all (1 < ·) := by
  rw [Node.showsCount]
  cases node.kind.maxChildren <;> rfl

/-! ## Histories -/

/-- Pushing tokens one after another joins those that are not empty by single spaces. After any
history, a writer that comes to a node or a field with a line pushes the line of the node or field.
The line of a node is joined from its symbol, the lines of its fields, the number of its children
unless at most one is allowed, and the lines of the children. The line of an active list is joined
from the number of its elements and the lines of their fields; a gate has the line of the field
inside it, any other active field its token, and an inactive field an empty line. -/
theorem lines_run {catalog : Catalog} {settings : Settings} {tree : Tree}
    (hstart : start catalog settings = .ok tree) (operations : List Operation) {final : Tree}
    (hfinal : (tree.run operations).2 = final) :
    (∀ tokens : List String, tokens.foldl pushToken "" =
      String.intercalate " " (tokens.filter (· ≠ ""))) ∧
    (∀ id node, final.node? id = some node →
      (∀ line, final.writeNode line id = pushToken line (final.nodeLine id)) ∧
      final.nodeLine id =
        wireLine (node.kind.symbol :: node.fields.map final.fieldLine ++
          (if node.kind.maxChildren.all (1 < ·) then [toString node.children.length] else []) ++
          node.children.map final.nodeLine)) ∧
    ∀ id field, final.field? id = some field →
      (∀ line, final.writeField line id = pushToken line (final.fieldLine id)) ∧
      final.fieldLine id =
        if field.active then
          match field.value with
          | .scalar s => s.token
          | .choice options chosen => (options[chosen]?.map (·.value)).getD ""
          | .list _ _ elements =>
            wireLine (toString elements.length :: elements.flatten.map final.fieldLine)
          | .gated _ inner => final.fieldLine inner
        else "" := by
  have hforest : final.Forest := hfinal ▸ (forest_start hstart).run operations
  have htidy : final.Tidy := hfinal ▸ (tidy_start hstart).run (forest_start hstart) operations
  refine ⟨fun tokens ↦ ?_, fun id node hn ↦ ⟨fun line ↦ writeNode_eq line id, ?_⟩,
    fun id field hf ↦ ⟨fun line ↦ writeField_eq line id, htidy.tiered.fieldLine_eq hf⟩⟩
  · rw [foldl_pushToken, empty_pushToken, wireLine]
  · rw [hforest.nodeLine_eq hn, showsCount_eq]

/-- The gate of the length of an object is moved to a source that has not been handed out, and so it
is off. The line of the root is the number of its children with the line of the object. -/
theorem lines_run_standard :
    let final := (standardTree.run [.addByCategory ⟨0⟩ .object, .rebind ⟨4⟩ (.field ⟨99⟩)]).2
    final.fieldLine ⟨4⟩ = "" ∧ final.nodeLine ⟨0⟩ = pushToken "1" (final.nodeLine ⟨1⟩) := by
  intro final
  have hnode : final.node? ⟨0⟩ = some { kind := Catalog.standard.root, children := [⟨1⟩] } := by
    decide +kernel
  have hsymbol : Catalog.standard.root.symbol = "" := by
    decide +kernel
  have hcount : Catalog.standard.root.maxChildren.all (1 < ·) = true := by
    decide +kernel
  have hgate : (final.field? ⟨4⟩).map (·.active) = some false := by
    decide +kernel
  obtain ⟨field, hf, hactive⟩ := Option.map_eq_some_iff.1 hgate
  obtain ⟨-, hnodes, hfields⟩ := lines_run start_standard _ (rfl : _ = final)
  constructor
  · rw [(hfields ⟨4⟩ field hf).2, hactive]
    rfl
  · rw [(hnodes ⟨0⟩ _ hnode).2]
    simp only [hsymbol, hcount, if_true, wireLine_cons, List.map_nil, List.map_cons,
      List.cons_append, List.nil_append, wireLine_nil, empty_pushToken, pushToken_empty]
    rfl

end Tree

end LightTree

import SymbolGraph.Program.Build
import SymbolGraph.Proofs.Discipline
import SymbolGraph.Proofs.Program.Tree

/-!
# Proofs — Program — programs that are built

A node is only ever added below one that exists, with the file of its parent and as its last child,
and a file is only registered with a root of its own.  So every program that is built step by step is a
forest; and since sorting keeps the order of nodes at the same place, siblings stand in source order,
the older ones first where two cover the same range.

* `Program.Sprouts`: an unfinished program.
* `Program.Step.apply_builds`: every step keeps it a forest.
* `Program.Precedes`: source order.  `Program.pairwise_sortInOrder`: sorting is stable.
* `Program.ofSteps_forest`, `Program.ofSteps_listed`, `Program.ofSteps_precedes`: a program that is
  built is a forest, every node of it is a child of its parent, and siblings stand in source order.
-/

namespace SymbolGraph.Program

open SymbolGraph.Action SymbolGraph.Discipline

variable {p q : Program} {node other : NodeId} {file : FileId}

/-! ### Unfinished programs -/

/-- Nodes agree in all that makes a forest, and so do the roots of files. -/
structure SameTrees (p q : Program) : Prop where
  children : ∀ node, q.children node = p.children node
  parent   : ∀ node, q.parent node = p.parent node
  fileOf   : ∀ node, q.fileOf node = p.fileOf node
  kind     : ∀ node, q.kind node = p.kind node
  roots    : q.fileInfos.map FileInfo.root = p.fileInfos.map FileInfo.root

/-- An unfinished program: a forest with an entry for each file, in which every node is a child of its
parent and the children of a node stand in order of creation. -/
structure Sprouts (p : Program) : Prop where
  forest  : p.Forest
  listed  : p.Listed
  aging   : ∀ node, (p.children node).Pairwise fun a b => a.index < b.index
  entries : p.fileInfos.size = p.files.size

section SameTrees

/-- Where the trees are the same, so are the roots of files. -/
theorem SameTrees.root (h : p.SameTrees q) (file : FileId) : q.root file = p.root file := by
  have hget := congrArg (fun infos => infos[file.index]?) h.roots
  simp only [Array.getElem?_map] at hget
  rw [Program.root, Program.root, hget]

theorem SameTrees.size (h : p.SameTrees q) : q.fileInfos.size = p.fileInfos.size := by
  simpa using congrArg Array.size h.roots

/-- The same trees are a forest again. -/
theorem Forest.same (h : p.Forest) (hsame : p.SameTrees q) : q.Forest where
  child node child hmem := by
    rw [hsame.parent]
    exact h.child node child (hsame.children node ▸ hmem)
  file node parent hparent := by
    rw [hsame.parent] at hparent
    rw [hsame.fileOf, hsame.fileOf]
    exact h.file node parent hparent
  older node parent hparent := by
    rw [hsame.parent] at hparent
    exact h.older node parent hparent
  root file hfile := by
    rw [IsRoot, hsame.root, hsame.fileOf, hsame.kind, hsame.parent]
    refine h.root file ?_
    rwa [sourceFiles, hsame.size] at hfile

/-- The same trees sprout again, for as many files. -/
theorem Sprouts.same (h : p.Sprouts) (hsame : p.SameTrees q)
    (hfiles : q.files.size = p.files.size) : q.Sprouts where
  forest := h.forest.same hsame
  listed node parent hparent := by
    rw [hsame.children]
    exact h.listed node parent (hsame.parent node ▸ hparent)
  aging node := by
    rw [hsame.children]
    exact h.aging node
  entries := by
    rw [hsame.size, hfiles]
    exact h.entries

/-- Nodes change in what makes no tree. -/
theorem sameTrees_of_nodes
    (hroots : q.fileInfos.map FileInfo.root = p.fileInfos.map FileInfo.root)
    (h : ∀ node, ∃ change : SyntaxNode → SyntaxNode, q.node? node = (p.node? node).map change ∧
      ∀ known, (change known).kind = known.kind ∧ (change known).file = known.file ∧
        (change known).parent = known.parent ∧
        (change known).children = known.children) : p.SameTrees q := by
  refine ⟨fun node => ?_, fun node => ?_, fun node => ?_, fun node => ?_, hroots⟩
  all_goals
    obtain ⟨change, hnode, hchange⟩ := h node
    simp only [children, parent, fileOf, kind, hnode]
    cases p.node? node with
    | none => rfl
    | some known => simp [hchange known]

end SameTrees

section Grown

variable {fresh : SyntaxNode}

/-- The program with one more node, the last child of its parent if it has one. -/
def grown (p : Program) (fresh : SyntaxNode) : Program :=
  { p with nodes := (match fresh.parent with
      | none       => p.nodes
      | some above => p.nodes.modify above.index fun known =>
          { known with children := known.children ++ [(⟨p.nodes.size⟩ : NodeId)] }).push fresh }

/-- A node that grows comes last, and its parent gets it as its last child. -/
theorem node?_grown : (p.grown fresh).node? node = if node.index = p.nodes.size then some fresh
    else (p.node? node).map fun known => if fresh.parent = some node then
      { known with children := known.children ++ [(⟨p.nodes.size⟩ : NodeId)] } else known := by
  unfold grown node?
  cases hparent : fresh.parent with
  | none => simp [Array.getElem?_push]
  | some above =>
      have hsame : above.index = node.index ↔ above = node := by
        rw [NodeId.mk.injEq]
      by_cases hnode : node.index = p.nodes.size
      · rw [if_pos hnode, Array.getElem?_push, Array.size_modify, if_pos hnode]
      · simp only [Array.getElem?_push, Array.size_modify, hnode, if_false, Option.some.injEq,
          Array.getElem?_modify, hsame]
        split
        · rfl
        · simp

/-- What a node says apart from its children. -/
theorem map_node?_grown {α : Type} (read : SyntaxNode → α)
    (hread : ∀ known children, read { known with children } = read known) :
    ((p.grown fresh).node? node).map read
      = if node.index = p.nodes.size then some (read fresh) else (p.node? node).map read := by
  rw [node?_grown]
  split
  · rfl
  · rw [Option.map_map]
    refine congrArg (fun read => (p.node? node).map read) (funext fun known => ?_)
    rw [Function.comp_apply]
    split
    · exact hread known _
    · rfl

/-- Nodes keep their kinds when one grows. -/
theorem kind_grown : (p.grown fresh).kind node
    = if node.index = p.nodes.size then fresh.kind else p.kind node := by
  rw [kind, kind, map_node?_grown SyntaxNode.kind fun _ _ => rfl]
  split <;> rfl

/-- Nodes keep their files when one grows. -/
theorem fileOf_grown : (p.grown fresh).fileOf node
    = if node.index = p.nodes.size then fresh.file else p.fileOf node := by
  rw [fileOf, fileOf, map_node?_grown SyntaxNode.file fun _ _ => rfl]
  split <;> rfl

/-- Nodes keep their parents when one grows. -/
theorem parent_grown : (p.grown fresh).parent node
    = if node.index = p.nodes.size then fresh.parent else p.parent node := by
  rw [parent, parent, node?_grown]
  split
  · rfl
  · cases p.node? node with
    | none => rfl
    | some known => simp only [Option.map_some, Option.bind_some]; split <;> rfl

/-- The parent of a node that grows gets it as its last child, and no other node gets one. -/
theorem children_grown (hleaf : fresh.children = []) : (p.grown fresh).children node
    = if fresh.parent = some node ∧ node.index < p.nodes.size
      then p.children node ++ [(⟨p.nodes.size⟩ : NodeId)] else p.children node := by
  rw [children, children, node?_grown]
  rcases Nat.lt_trichotomy node.index p.nodes.size with hlt | heq | hgt
  · rw [if_neg (Nat.ne_of_lt hlt), node?, Array.getElem?_eq_getElem hlt]
    simp only [Option.map_some, Option.getD_some, hlt, and_true]
    split <;> rfl
  · have hnone : p.node? node = none := Array.getElem?_eq_none (Nat.le_of_eq heq.symm)
    rw [if_pos heq, if_neg fun h => Nat.lt_irrefl _ (heq ▸ h.2), hnone]
    exact hleaf
  · have hnone : p.node? node = none := Array.getElem?_eq_none (Nat.le_of_lt hgt)
    rw [if_neg (Nat.ne_of_gt hgt), if_neg fun h => Nat.lt_asymm hgt h.2, hnone]
    rfl

/-- A child was one before, or it is the node that grew. -/
theorem mem_children_grown (hleaf : fresh.children = [])
    (hmem : other ∈ (p.grown fresh).children node) :
    other ∈ p.children node ∨ other.index = p.nodes.size ∧ fresh.parent = some node := by
  rw [children_grown hleaf] at hmem
  split at hmem
  · rename_i hparent
    rcases List.mem_append.mp hmem with hmem | hmem
    · exact .inl hmem
    · exact .inr ⟨congrArg NodeId.index (List.mem_singleton.mp hmem), hparent.1⟩
  · exact .inl hmem

/-- A node that has a parent or a name, or is the root of a file, was added. -/
theorem index_lt (h : p.parent node ≠ none ∨ p.kind node = .sourceFile ∨ p.nameOf node ≠ none) :
    node.index < p.nodes.size := by
  refine Nat.lt_of_not_le fun hge => ?_
  have hnone : p.node? node = none := Array.getElem?_eq_none hge
  simp [parent, kind, nameOf, hnone] at h

/-- A symbol that is declared was added. -/
theorem index_lt_of_declares {symbol : SymbolRef} {declaration : NodeId}
    (h : declaration ∈ p.declarations symbol) : symbol.index < p.symbols.size := by
  refine Nat.lt_of_not_le fun hge => ?_
  have hnone : p.symbol? symbol = none := Array.getElem?_eq_none hge
  simp [declarations, hnone] at h

/-- **A node is added below one that exists, or below nothing.** -/
theorem Forest.grow (h : p.Forest) (hleaf : fresh.children = [])
    (hfresh : ∀ above, fresh.parent = some above →
      above.index < p.nodes.size ∧ fresh.file = p.fileOf above) : (p.grown fresh).Forest where
  child node child hmem := by
    rw [parent_grown]
    -- A child in the grown program was one before, or it is the new node under its parent.
    rcases mem_children_grown hleaf hmem with hold | ⟨hnew, hparent⟩
    · have hchild := h.child node child hold
      have hlt := index_lt (.inl (hchild ▸ nofun) : p.parent child ≠ none ∨ _)
      rw [if_neg (by omega), hchild]
    · rw [if_pos hnew, hparent]
  file node parent hparent := by
    rw [parent_grown] at hparent
    rw [fileOf_grown, fileOf_grown]
    split at hparent
    · rename_i hnode
      obtain ⟨hlt, hfile⟩ := hfresh parent hparent
      rw [if_pos hnode, if_neg (by omega), hfile]
    · rename_i hnode
      have holder := h.older node parent hparent
      have hlt := index_lt (.inl (hparent ▸ nofun) : p.parent node ≠ none ∨ _)
      rw [if_neg hnode, if_neg (by omega)]
      exact h.file node parent hparent
  older node parent hparent := by
    rw [parent_grown] at hparent
    split at hparent
    · rename_i hnode
      rw [hnode]
      exact (hfresh parent hparent).1
    · exact h.older node parent hparent
  root file hfile := by
    obtain ⟨hof, hkind, hparent⟩ := h.root file hfile
    have hlt := index_lt (.inr (.inl hkind))
    rw [IsRoot, show (p.grown fresh).root file = p.root file from rfl, fileOf_grown, kind_grown,
      parent_grown, if_neg (by omega), if_neg (by omega), if_neg (by omega)]
    exact ⟨hof, hkind, hparent⟩

/-- The node that is added is the last child of its parent. -/
theorem Sprouts.grow (h : p.Sprouts) (hleaf : fresh.children = [])
    (hfresh : ∀ above, fresh.parent = some above →
      above.index < p.nodes.size ∧ fresh.file = p.fileOf above) : (p.grown fresh).Sprouts where
  forest := h.forest.grow hleaf hfresh
  listed node parent hparent := by
    rw [parent_grown] at hparent
    rw [children_grown hleaf]
    split at hparent
    · rename_i hnode
      rw [if_pos ⟨hparent, (hfresh parent hparent).1⟩]
      exact List.mem_append_right _ (List.mem_singleton.mpr (congrArg NodeId.mk hnode))
    · have hlisted := h.listed node parent hparent
      split
      · exact List.mem_append_left _ hlisted
      · exact hlisted
  aging node := by
    rw [children_grown hleaf]
    split
    · refine List.pairwise_append.mpr ⟨h.aging node, List.pairwise_singleton _ _,
        fun child hchild other hother => ?_⟩
      have hparent := h.forest.child node child hchild
      rw [List.mem_singleton.mp hother]
      exact index_lt (.inl (hparent ▸ nofun) : p.parent child ≠ none ∨ _)
    · exact h.aging node
  entries := h.entries

end Grown

/-! ### Files -/

/-- A file that is registered again keeps its place, and a new one comes last. -/
theorem add_cases (files : FileSet) (path : Path) (text : String) :
    (files.add path text).2.index < files.size ∧ (files.add path text).1.size = files.size ∨
      (files.add path text).2.index = files.size ∧
        (files.add path text).1.size = files.size + 1 := by
  unfold FileSet.add
  cases hlookup : files.lookup path with
  | none => exact .inr ⟨rfl, Array.size_push _⟩
  | some file =>
      obtain ⟨index, hindex, rfl⟩ := Option.map_eq_some_iff.mp hlookup
      exact .inl ⟨(Array.findIdx?_eq_some_iff_getElem.mp hindex).1, Array.size_modify⟩

/-- The entry of a file is written, at the end if it is new. -/
def entering (infos : Array FileInfo) (file : FileId) (info : FileInfo) : Array FileInfo :=
  if file.index < infos.size then infos.modify file.index fun _ => info else infos.push info

/-- Entering a file is all that happens to the files. -/
theorem entering_eq {info : FileInfo} :
    { p with fileInfos := entering p.fileInfos file info }
      = if file.index < p.fileInfos.size then
          { p with fileInfos := p.fileInfos.modify file.index fun _ => info }
        else { p with fileInfos := p.fileInfos.push info } := by
  unfold entering
  split <;> rfl

section Entering

variable {infos : Array FileInfo} {info : FileInfo}

/-- What is known of a file is what was entered last. -/
theorem getElem?_entering (hfile : file.index ≤ infos.size) (i : Nat) :
    (entering infos file info)[i]? = if i = file.index then some info else infos[i]? := by
  unfold entering
  split
  · rename_i hlt
    rw [Array.getElem?_modify]
    by_cases hi : file.index = i
    · rw [if_pos hi, if_pos hi.symm, Array.getElem?_eq_getElem (hi ▸ hlt)]
      rfl
    · rw [if_neg hi, if_neg (Ne.symm hi)]
  · rename_i hge
    rw [Array.getElem?_push, Nat.le_antisymm hfile (Nat.le_of_not_lt hge)]

/-- A file that is entered is known before, or comes last. -/
theorem size_entering : (entering infos file info).size
    = if file.index < infos.size then infos.size else infos.size + 1 := by
  unfold entering
  split
  · exact Array.size_modify
  · exact Array.size_push _

end Entering

/-- Files are registered for nodes that are roots. -/
theorem Sprouts.enter (h : p.Sprouts) (hnodes : q.nodes = p.nodes)
    (hroots : ∀ file ∈ q.sourceFiles, p.IsRoot file (q.root file))
    (hentries : q.fileInfos.size = q.files.size) : q.Sprouts := by
  have hnode (node : NodeId) : q.node? node = p.node? node := by rw [node?, node?, hnodes]
  refine ⟨⟨fun node child => ?_, fun node parent => ?_, fun node parent => ?_,
    fun file hfile => ?_⟩, fun node parent => ?_, fun node => ?_, hentries⟩
  · rw [children, Program.parent, hnode, hnode]
    exact h.forest.child node child
  · rw [Program.parent, fileOf, fileOf, hnode, hnode]
    exact h.forest.file node parent
  · rw [Program.parent, hnode]
    exact h.forest.older node parent
  · rw [IsRoot, fileOf, kind, Program.parent, hnode]
    exact hroots file hfile
  · rw [children, Program.parent, hnode, hnode]
    exact h.listed node parent
  · rw [children, hnode]
    exact h.aging node

/-- **A file is registered**, with a root that is below nothing. -/
theorem Sprouts.entering (h : p.Sprouts) {files : FileSet} {info : FileInfo}
    (hadd : file.index < p.files.size ∧ files.size = p.files.size ∨
      file.index = p.files.size ∧ files.size = p.files.size + 1) (hroot : p.IsRoot file info.root) :
    Sprouts { p with files, fileInfos := Program.entering p.fileInfos file info } := by
  have hentries := h.entries
  have hsize := @size_entering file p.fileInfos info
  refine h.enter rfl (fun other hother => ?_) ?_
  · have hget := @getElem?_entering file p.fileInfos info (by omega) other.index
    rw [Program.root, hget]
    by_cases hfile : other.index = file.index
    · obtain rfl : other = file := congrArg FileId.mk hfile
      rw [if_pos rfl]
      exact hroot
    · rw [if_neg hfile]
      refine h.forest.root other ?_
      obtain ⟨i, hi, rfl⟩ := List.mem_map.mp hother
      refine List.mem_map.mpr ⟨i, List.mem_range.mpr ?_, rfl⟩
      have hlt : i < (Program.entering p.fileInfos file info).size := List.mem_range.mp hi
      have hne : i ≠ file.index := hfile
      split at hsize <;> omega
  · show (Program.entering p.fileInfos file info).size = files.size
    split at hsize <;> omega

/-! ### Steps -/

/-- From an unfinished program, a step builds an unfinished program or is refused. -/
def building : Discipline Program BuildFault where
  ready := Sprouts
  steps _ q := q.Sprouts
  blames _ _ _ := True
  refl h := h
  trans _ h := h
  keeps _ h := h
  carries _ h := h

/-- An action that builds. -/
abbrev Builds {α : Type} (act : Build α) (p : Program) (post : α → Program → Prop) : Prop :=
  building.Follows act p post

namespace Build

variable {above : NodeId}

/-- Asking for a node changes nothing. -/
theorem nodeAt_builds : Builds (nodeAt node) p fun known q => q = p ∧ p.node? node = some known := by
  refine follows_get ?_
  cases hknown : p.node? node with
  | some known => exact follows_pure ⟨rfl, rfl⟩
  | none => exact follows_throw trivial

/-- A change of what makes no tree. -/
theorem modify_builds {f : Program → Program} (hsame : p.SameTrees (f p))
    (hfiles : (f p).files.size = p.files.size) : Builds (modify f) p fun _ _ => True :=
  fun h => ensures_modify.mpr ⟨h.same hsame hfiles, trivial⟩

/-- Only nodes and files make the trees. -/
theorem sameTrees_of_eq (hnodes : q.nodes = p.nodes) (hinfos : q.fileInfos = p.fileInfos) :
    p.SameTrees q := by
  refine sameTrees_of_nodes (by rw [hinfos]) fun node => ⟨id, ?_, fun known => ?_⟩
  · rw [node?, hnodes, Option.map_id]
    rfl
  · exact ⟨rfl, rfl, rfl, rfl⟩

/-- A node may change in all but its kind, its file and its neighbours. -/
theorem updateNode_builds {change : SyntaxNode → SyntaxNode}
    (h : ∀ known, (change known).kind = known.kind ∧ (change known).file = known.file ∧
      (change known).parent = known.parent ∧ (change known).children = known.children) :
    Builds (updateNode node change) p fun _ _ => True := by
  refine follows_get ?_
  split
  · refine modify_builds (sameTrees_of_nodes rfl fun other => ?_) rfl
    refine ⟨fun known => if node.index = other.index then change known else known, ?_,
      fun known => ?_⟩
    · show (p.nodes.modify node.index change)[other.index]? = p.nodes[other.index]?.map _
      rw [Array.getElem?_modify]
      split
      · rfl
      · simp
    · split
      · exact h known
      · exact ⟨rfl, rfl, rfl, rfl⟩
  · exact follows_throw trivial

/-- Symbols make no trees. -/
theorem updateSymbol_builds {symbol : SymbolRef} {change : SymbolInfo → SymbolInfo} :
    Builds (updateSymbol symbol change) p fun _ _ => True := by
  refine follows_get ?_
  split
  · exact modify_builds (sameTrees_of_eq rfl rfl) rfl
  · exact follows_throw trivial

/-- Types make no trees. -/
theorem updateType_builds {type : TypeRef} {change : TypeInfo → TypeInfo} :
    Builds (updateType type change) p fun _ _ => True := by
  refine follows_get ?_
  split
  · exact modify_builds (sameTrees_of_eq rfl rfl) rfl
  · exact follows_throw trivial

/-- A new symbol makes no tree. -/
theorem addSymbol_builds {name : String} {flags : SymbolFlags} :
    Builds (addSymbol name flags) p fun _ _ => True :=
  follows_get ((modify_builds (sameTrees_of_eq rfl rfl) rfl).bind fun _ _ _ _ _ =>
    follows_pure trivial)

/-- A new type makes none either. -/
theorem addType_builds {type : TypeInfo} : Builds (addType type) p fun _ _ => True :=
  modify_builds (sameTrees_of_eq rfl rfl) rfl

/-- Binding a node to a symbol moves no node. -/
theorem bind_builds {symbol : SymbolRef} : Builds (bind node symbol) p fun _ _ => True :=
  updateNode_builds fun _ => ⟨rfl, rfl, rfl, rfl⟩

/-- A node is appended. -/
theorem pushNode_ensures {fresh : SyntaxNode}
    (hparent : ∀ above, fresh.parent = some above → above.index < p.nodes.size) :
    Ensures (pushNode fresh) p (fun node q => node = ⟨p.nodes.size⟩ ∧ q = p.grown fresh)
      fun _ _ => True := by
  refine ensures_bind.mpr (ensures_get.mpr ?_)
  dsimp only
  cases habove : fresh.parent with
  | none =>
      refine ensures_bind.mpr (ensures_modify.mpr (ensures_pure.mpr ⟨rfl, ?_⟩))
      rw [grown, habove]
  | some above =>
      refine ensures_bind.mpr (ensures_bind.mpr (ensures_get.mpr ?_))
      rw [if_pos (hparent above habove)]
      refine ensures_modify.mpr (ensures_bind.mpr (ensures_modify.mpr (ensures_pure.mpr ⟨rfl, ?_⟩)))
      rw [grown, habove]

/-- A node grows below another, in the file of that. -/
theorem addNode_builds {kind : NodeKind} {range : TextRange} :
    Builds (addNode above kind range) p fun _ _ => True := by
  refine nodeAt_builds.bind fun known q _ _ hknown hp => ?_
  obtain ⟨rfl, hknown⟩ := hknown
  have habove : ∀ other, some above = some other → other.index < q.nodes.size ∧
      known.file = q.fileOf other := by
    intro other heq
    obtain rfl := Option.some.inj heq
    refine ⟨(Array.getElem?_eq_some_iff.mp hknown).1, ?_⟩
    rw [fileOf, hknown]
    rfl
  refine Ensures.mono (pushNode_ensures fun other heq => (habove other heq).1)
    (fun node r hr => ?_) fun _ _ h => h
  obtain ⟨-, rfl⟩ := hr
  exact ⟨hp.grow rfl habove, trivial⟩

/-- Looking for a text changes nothing. -/
theorem find_builds {text : String} {nth : Nat} :
    Builds (find above text nth) p fun _ _ => True := by
  refine nodeAt_builds.bind fun known q _ _ hknown => follows_get ?_
  split
  · split
    · split
      · exact follows_pure trivial
      · exact follows_throw trivial
    · exact follows_throw trivial
  · exact follows_throw trivial

theorem addNodeAt_builds {kind : NodeKind} {text : String} {nth : Nat} :
    Builds (addNodeAt above kind text nth) p fun _ _ => True :=
  find_builds.bind fun _ _ _ _ _ => addNode_builds

/-- **A file is added with its root.** -/
theorem addFile_builds {path : Path} {text : String} :
    Builds (addFile path text) p fun _ _ => True := by
  intro hp
  refine ensures_bind.mpr (ensures_get.mpr ?_)
  have hadd := add_cases p.files path text
  cases hfiles : p.files.add path text with
  | mk files file =>
      rw [hfiles] at hadd
      refine ensures_bind.mpr (ensures_modify.mpr (ensures_bind.mpr ?_))
      refine (pushNode_ensures (by nofun)).mono (fun root q hq => ?_) fun _ _ h => h
      obtain ⟨rfl, rfl⟩ := hq
      refine ensures_bind.mpr (ensures_modify.mpr (ensures_pure.mpr ⟨?_, trivial⟩))
      -- The root is there before the file has its entry.
      have hgrown : (p.grown { kind := .sourceFile, file, parent := none
                               range := .ofLength 0 (Text.byteLength text.toList) }).Sprouts :=
        hp.grow rfl nofun
      have hroot : (p.grown { kind := .sourceFile, file, parent := none
                              range := .ofLength 0 (Text.byteLength text.toList) }).IsRoot file
          ⟨p.nodes.size⟩ := by
        rw [IsRoot, fileOf_grown, kind_grown, parent_grown]
        exact ⟨if_pos rfl, if_pos rfl, if_pos rfl⟩
      rw [← entering_eq]
      exact hgrown.entering hadd hroot

/-- A module is bound to a symbol of its own. -/
theorem makeModule_builds : Builds (makeModule node) p fun _ _ => True := by
  refine nodeAt_builds.bind fun known q _ _ hknown => follows_get ?_
  refine addSymbol_builds.bind fun symbol r _ _ _ => updateSymbol_builds.bind fun _ r' _ _ _ => ?_
  refine bind_builds.bind fun _ r'' _ _ _ => modify_builds ?_ rfl
  refine sameTrees_of_nodes ?_ fun other => ⟨id, ?_, fun known => ?_⟩
  · refine Array.ext_getElem? fun i => ?_
    rw [Array.getElem?_map, Array.getElem?_map, Array.getElem?_modify]
    split
    · cases r''.fileInfos[i]? <;> rfl
    · rfl
  · rw [Option.map_id]
    rfl
  · exact ⟨rfl, rfl, rfl, rfl⟩

/-- Declaring a symbol moves no node. -/
theorem declare_builds {symbol : SymbolRef} : Builds (declare symbol node) p fun _ _ => True := by
  refine updateSymbol_builds.bind fun _ q _ _ _ => bind_builds.bind fun _ r _ _ _ => ?_
  refine nodeAt_builds.bind fun known r' _ _ _ => ?_
  split
  · exact bind_builds
  · exact follows_pure trivial

end Build

/-- **Every step keeps a forest.** -/
theorem Step.apply_builds (step : Step) : Builds step.apply p fun _ _ => True := by
  cases step with
  | file path text => exact Build.addFile_builds.discard
  | origin node source =>
      refine Build.nodeAt_builds.bind fun known q _ _ _ => ?_
      exact Build.modify_builds (Build.sameTrees_of_eq rfl rfl) Array.size_modify
  | module root => exact Build.makeModule_builds
  | node above kind start stop =>
      simp only [apply]
      split
      · exact Build.addNode_builds.discard
      · exact follows_throw trivial
  | nodeAt above kind text nth => exact Build.addNodeAt_builds.discard
  | declaration above kind text name =>
      refine Build.addNodeAt_builds.bind fun declaration q _ _ _ => ?_
      refine Build.addNodeAt_builds.bind fun ident r _ _ _ => ?_
      exact Build.updateNode_builds fun _ => ⟨rfl, rfl, rfl, rfl⟩
  | identifier above name nth symbol =>
      exact Build.addNodeAt_builds.bind fun _ _ _ _ _ => Build.bind_builds
  | setName declaration name => exact Build.updateNode_builds fun _ => ⟨rfl, rfl, rfl, rfl⟩
  | bind node symbol => exact Build.bind_builds
  | typeAt node type => exact Build.updateNode_builds fun _ => ⟨rfl, rfl, rfl, rfl⟩
  | quickInfo node info => exact Build.updateNode_builds fun _ => ⟨rfl, rfl, rfl, rfl⟩
  | symbol name flags => exact Build.addSymbol_builds.discard
  | declare symbol declaration => exact Build.declare_builds
  | exported above child =>
      exact Build.updateSymbol_builds.bind fun _ _ _ _ _ => Build.updateSymbol_builds
  | member container member =>
      exact Build.updateSymbol_builds.bind fun _ _ _ _ _ => Build.updateSymbol_builds
  | objectType symbol => exact Build.addType_builds
  | unionType constituents => exact Build.addType_builds
  | baseType type base => exact Build.updateType_builds
  | property type property => exact Build.updateType_builds
  | _ => exact Build.updateSymbol_builds

/-- Without files and nodes there is nothing to sprout. -/
theorem empty_sprouts : empty.Sprouts :=
  ⟨⟨nofun, nofun, nofun, nofun⟩, nofun, fun _ => List.Pairwise.nil, rfl⟩

/-! ### Source order -/

/-- One node stands before another: it starts earlier, or it starts together with it and ends later, or
it covers the same range and is older. -/
def Precedes (p : Program) (a b : NodeId) : Prop :=
  (p.range a).start < (p.range b).start ∨ (p.range a).start = (p.range b).start ∧
    ((p.range b).stop < (p.range a).stop ∨
      (p.range b).stop = (p.range a).stop ∧ a.index < b.index)

theorem Precedes.trans {a b c : NodeId} (h : p.Precedes a b) (h' : p.Precedes b c) :
    p.Precedes a c := by
  unfold Precedes at *
  omega

/-- No node precedes itself. -/
theorem Precedes.ne {a b : NodeId} (h : p.Precedes a b) : a ≠ b := by
  rintro rfl
  unfold Precedes at h
  omega

/-- Of two nodes in source order the first precedes the second, if it is the older one. -/
theorem precedes_of_sourceOrder {a b : NodeId} (h : p.sourceOrder a b = true)
    (hindex : a.index < b.index) : p.Precedes a b := by
  simp only [sourceOrder, Bool.or_eq_true, Bool.and_eq_true, decide_eq_true_eq] at h
  unfold Precedes
  omega

/-- Of two nodes that are not in source order the second precedes the first. -/
theorem precedes_of_not_sourceOrder {a b : NodeId} (h : p.sourceOrder a b ≠ true) :
    p.Precedes b a := by
  simp only [sourceOrder, ne_eq, Bool.or_eq_true, Bool.and_eq_true, decide_eq_true_eq] at h
  unfold Precedes
  omega

/-- Inserting a node adds it and loses none. -/
theorem perm_insertInOrder : ∀ nodes : List NodeId,
    (p.insertInOrder node nodes).Perm (node :: nodes)
  | [] => .refl _
  | head :: rest => by
      unfold insertInOrder
      split
      · exact .refl _
      · exact ((perm_insertInOrder rest).cons head).trans (.swap node head rest)

/-- Sorting loses no node and adds none. -/
theorem perm_sortInOrder : ∀ nodes : List NodeId, (p.sortInOrder nodes).Perm nodes
  | [] => .refl _
  | head :: rest => (perm_insertInOrder _).trans ((perm_sortInOrder rest).cons head)

/-- A node is inserted among younger ones. -/
theorem pairwise_insertInOrder : ∀ {nodes : List NodeId},
    (∀ other ∈ nodes, node.index < other.index) → nodes.Pairwise p.Precedes →
      (p.insertInOrder node nodes).Pairwise p.Precedes
  | [], _, _ => List.pairwise_singleton _ _
  | head :: rest, hyounger, hsorted => by
      obtain ⟨hhead, hrest⟩ := List.pairwise_cons.mp hsorted
      unfold insertInOrder
      split
      · rename_i horder
        have hfirst := precedes_of_sourceOrder horder (hyounger head List.mem_cons_self)
        refine List.pairwise_cons.mpr ⟨fun other hother => ?_, hsorted⟩
        rcases List.mem_cons.mp hother with rfl | hother
        · exact hfirst
        · exact hfirst.trans (hhead other hother)
      · rename_i horder
        refine List.pairwise_cons.mpr ⟨fun other hother => ?_, pairwise_insertInOrder
          (fun other hother => hyounger other (List.mem_cons_of_mem _ hother)) hrest⟩
        rcases List.mem_cons.mp ((perm_insertInOrder rest).mem_iff.mp hother) with rfl | hother
        · exact precedes_of_not_sourceOrder horder
        · exact hhead other hother

/-- **Sorting nodes that stand in order of creation** puts them into source order, the older first
where two cover the same range. -/
theorem pairwise_sortInOrder : ∀ {nodes : List NodeId},
    (nodes.Pairwise fun a b => a.index < b.index) → (p.sortInOrder nodes).Pairwise p.Precedes
  | [], _ => List.Pairwise.nil
  | head :: rest, haging => by
      obtain ⟨hhead, hrest⟩ := List.pairwise_cons.mp haging
      exact pairwise_insertInOrder
        (fun other hother => hhead other ((perm_sortInOrder rest).mem_iff.mp hother))
        (pairwise_sortInOrder hrest)

section InSourceOrder

/-- Every node is as before but for the order of its children. -/
theorem node?_inSourceOrder : p.inSourceOrder.node? node = (p.node? node).map fun known =>
    { known with children := p.sortInOrder known.children } :=
  Array.getElem?_map

/-- The children are those there were, sorted. -/
theorem children_inSourceOrder :
    p.inSourceOrder.children node = p.sortInOrder (p.children node) := by
  rw [children, children, node?_inSourceOrder]
  cases p.node? node <;> rfl

/-- Sorting makes and loses no child. -/
theorem mem_children_inSourceOrder :
    other ∈ p.inSourceOrder.children node ↔ other ∈ p.children node := by
  rw [children_inSourceOrder]
  exact (perm_sortInOrder _).mem_iff

theorem parent_inSourceOrder : p.inSourceOrder.parent node = p.parent node := by
  rw [parent, parent, node?_inSourceOrder]
  cases p.node? node <;> rfl

theorem fileOf_inSourceOrder : p.inSourceOrder.fileOf node = p.fileOf node := by
  rw [fileOf, fileOf, node?_inSourceOrder]
  cases p.node? node <;> rfl

theorem kind_inSourceOrder : p.inSourceOrder.kind node = p.kind node := by
  rw [kind, kind, node?_inSourceOrder]
  cases p.node? node <;> rfl

theorem range_inSourceOrder : p.inSourceOrder.range node = p.range node := by
  rw [range, range, node?_inSourceOrder]
  cases p.node? node <;> rfl

/-- Sorting the children leaves a forest a forest. -/
theorem Forest.inSourceOrder (h : p.Forest) : p.inSourceOrder.Forest where
  child node child hmem := by
    rw [parent_inSourceOrder]
    exact h.child node child (mem_children_inSourceOrder.mp hmem)
  file node parent hparent := by
    rw [parent_inSourceOrder] at hparent
    rw [fileOf_inSourceOrder, fileOf_inSourceOrder]
    exact h.file node parent hparent
  older node parent hparent := by
    rw [parent_inSourceOrder] at hparent
    exact h.older node parent hparent
  root file hfile := by
    rw [IsRoot, fileOf_inSourceOrder, kind_inSourceOrder, parent_inSourceOrder]
    exact h.root file hfile

end InSourceOrder

/-! ### Finished programs -/

/-- What a program that is built has grown from. -/
theorem ofSteps_sprouts {steps : List Step} (h : ofSteps steps = .ok p) :
    ∃ q : Program, q.Sprouts ∧ q.inSourceOrder = p := by
  have hsteps : Builds (steps.forM Step.apply) empty fun _ _ => True :=
    .forM (fun _ => True) steps (fun step _ q _ => step.apply_builds) trivial
  unfold ofSteps at h
  split at h
  · rename_i q hrun
    cases h
    exact ⟨q, ((hsteps empty_sprouts).of_ok hrun).1, rfl⟩
  · cases h

/-- **A program that is built is a forest.** -/
theorem ofSteps_forest {steps : List Step} (h : ofSteps steps = .ok p) : p.Forest := by
  obtain ⟨q, hq, rfl⟩ := ofSteps_sprouts h
  exact hq.forest.inSourceOrder

/-- In a program that is built every node is a child of its parent. -/
theorem ofSteps_listed {steps : List Step} (h : ofSteps steps = .ok p) : p.Listed := by
  obtain ⟨q, hq, rfl⟩ := ofSteps_sprouts h
  intro node parent hparent
  rw [parent_inSourceOrder] at hparent
  exact mem_children_inSourceOrder.mpr (hq.listed node parent hparent)

/-- **In a program that is built the children of a node stand in source order.** -/
theorem ofSteps_precedes {steps : List Step} (h : ofSteps steps = .ok p) (node : NodeId) :
    (p.children node).Pairwise p.Precedes := by
  obtain ⟨q, hq, rfl⟩ := ofSteps_sprouts h
  rw [children_inSourceOrder]
  refine (pairwise_sortInOrder (hq.aging node)).imp fun hprecedes => ?_
  simpa only [Precedes, range_inSourceOrder] using hprecedes

/-- In a program that is built no node is a child of another twice. -/
theorem ofSteps_siblings {steps : List Step} (h : ofSteps steps = .ok p) : p.Siblings :=
  fun node => (ofSteps_precedes h node).imp Precedes.ne

end SymbolGraph.Program

import SymbolGraph.Proofs.Program.Tree
import SymbolGraph.Proofs.Session.Explaining
import SymbolGraph.Proofs.Session.Rounds

/-!
# Proofs — Session — what a walk leaves behind

Whenever a walk has looked for a record no key is reserved, and a key is cleared only if the walk has
left the scope of a symbol with that key.  No scope that was left is above what is still to be walked.
And where the only source files are the roots of files, every container that is opened is closed,
also when something in between failed.

* `Program.Branching`, `Program.Tidy`: siblings are distinct, and the only source files are the roots
  of files.
* `Program.Accounts`: the reasons for which a walk fails.
* `Session.Calm`: what holds between looking for one record and the next, and `Session.CalmAt` where
  an identifier is visited.
* `Session.visitIdentifier_explained`: why a visit fails.
* `Session.Plan.visitWithin_keeps`: walking a tree keeps calm.
-/

namespace SymbolGraph

open SymbolGraph.Action SymbolGraph.Agenda SymbolGraph.Discipline

/-! ### Trees -/

namespace Program

variable {p : Program} {node child : NodeId} {left : NodeId → Prop}

/-- The trees of a program, in which siblings are distinct. -/
structure Branching (p : Program) : Prop where
  forest   : p.Forest
  siblings : p.Siblings

/-- The trees of a program, in which the only source files are the roots of files. -/
structure Tidy (p : Program) : Prop extends p.Branching where
  only : ∀ node, p.kind node = .sourceFile → ∃ file ∈ p.sourceFiles, node = p.root file

/-- Only roots are source files, so a child is none. -/
theorem Tidy.kind_child (h : p.Tidy) (hchild : child ∈ p.children node) :
    p.kind child ≠ .sourceFile := by
  intro hkind
  obtain ⟨file, hfile, rfl⟩ := h.only child hkind
  have hparent := h.forest.child _ _ hchild
  rw [(h.forest.root file hfile).2.2] at hparent
  cases hparent

/-- No node that was left is above what is at or below a node. -/
def Away (p : Program) (left : NodeId → Prop) (node : NodeId) : Prop :=
  ∀ gone, left gone → ∀ x, p.Under node x → ¬ p.Under gone x

/-- A sibling that was walked before is not above a child, nor is anything below it. -/
theorem Branching.away_child (h : p.Branching) (haway : p.Away left node)
    {before after : List NodeId} (hchildren : before ++ child :: after = p.children node) :
    p.Away (fun gone => left gone ∨ ∃ sibling ∈ before, p.Under sibling gone) child := by
  have hmem : ∀ sibling ∈ before, sibling ∈ p.children node := fun sibling hsibling =>
    hchildren ▸ List.mem_append_left _ hsibling
  have hchild : child ∈ p.children node :=
    hchildren ▸ List.mem_append_right _ List.mem_cons_self
  have hnew : child ∉ before := by
    have hnodup := h.siblings node
    rw [← hchildren] at hnodup
    exact fun hbefore => (List.disjoint_of_nodup_append hnodup) hbefore List.mem_cons_self
  rintro gone (hgone | ⟨sibling, hsibling, hgone⟩) x hx hunder
  · exact haway gone hgone x (.head hchild hx) hunder
  · -- Both the child and the sibling would be above the same node.
    have heq : sibling = child := by
      rcases h.forest.under_total (hgone.trans hunder) hx with habove | habove
      · exact h.forest.eq_of_under hchild (hmem sibling hsibling) habove
      · exact (h.forest.eq_of_under (hmem sibling hsibling) hchild habove).symm
    exact hnew (heq ▸ hsibling)

/-- What is below the root of a file is not below that of another. -/
theorem Branching.away_file (h : p.Branching) {file : FileId} {before : List FileId}
    (hfile : file ∈ p.sourceFiles) (hbefore : ∀ other ∈ before, other ∈ p.sourceFiles)
    (hnew : file ∉ before) :
    p.Away (fun gone => ∃ other ∈ before, p.Under (p.root other) gone) (p.root file) := by
  rintro gone ⟨other, hother, hgone⟩ x hx hunder
  have hroot := h.forest.fileOf_under hx
  rw [h.forest.fileOf_under (hgone.trans hunder), (h.forest.root file hfile).1,
    (h.forest.root other (hbefore other hother)).1] at hroot
  exact hnew (hroot ▸ hother)

/-! ### Reasons -/

/-- The reasons for which a walk fails. -/
inductive Accounts (p : Program) : Fault → Prop
  /-- Something has ended or has not begun, or the sink refused an element. -/
  | ordinary {fault : Fault} : fault.IsOrdinary → Accounts p fault
  /-- A symbol is met again after its scope. -/
  | cleared (key : SymbolKey) : Accounts p (.recordCleared key)
  /-- A tree is too deep. -/
  | endless : Accounts p .endlessChain
  /-- A symbol needs one with its own key. -/
  | circular {x y : Request} : Relation.TransGen p.Needs x y → p.key y.symbol = p.key x.symbol →
      Accounts p (.cyclicResolution (p.key y.symbol))
  /-- A symbol that another needs has to be met somewhere. -/
  | placeless {x y : Request} : p.Needs x y → y.location = none →
      (p.resolution y.symbol none).requiresLocation = true →
      Accounts p (.missingLocation (p.resolution y.symbol none))
  /-- A file ends inside a tree. -/
  | untidy {fault : Fault} : ¬ p.Tidy → fault.IsUnbalanced → Accounts p fault

end Program

namespace Session

variable {α β : Type} {w : Setting} {p : Program} {s t u : Session} {left left' : NodeId → Prop}
  {node : NodeId} {symbol : SymbolRef} {fault : Fault}

/-! ### Calm -/

/-- Nothing is broken, no key is reserved, and a key is cleared only if the scope of a symbol with
that key was left. -/
structure Calm (p : Program) (left : NodeId → Prop) (s : Session) : Prop where
  sturdy  : s.Sturdy p
  idle    : ∀ key, s.store.cache.get? key ≠ some .resolving
  cleared : ∀ key, s.store.cache.get? key = some .cleared → ∃ symbol node,
    p.key symbol = key ∧ scopeOf p symbol (p.declarations symbol) = some node ∧ left node

/-- Where an identifier is visited, no scope that was left is above it. -/
def CalmAt (p : Program) (x : NodeId) (s : Session) : Prop :=
  ∃ left, s.Calm p left ∧ (p.Branching → ∀ gone, left gone → ¬ p.Under gone x)

/-- The session is calm, and as many containers are open as before. -/
structure Paces (p : Program) (left : NodeId → Prop) (s t : Session) : Prop where
  calm  : t.Calm p left
  depth : p.Tidy → ∀ file, t.store.depth file = s.store.depth file

/-- A session is as calm with fewer nodes left. -/
theorem Calm.mono (h : s.Calm p left) (himp : ∀ node, left node → left' node) : s.Calm p left' := by
  refine ⟨h.sturdy, h.idle, fun key hkey => ?_⟩
  obtain ⟨symbol, node, hsymbol, hscope, hleft⟩ := h.cleared key hkey
  exact ⟨symbol, node, hsymbol, hscope, himp node hleft⟩

theorem Calm.paces (h : s.Calm p left) : Paces p left s s := ⟨h, fun _ _ => rfl⟩

/-- A calm session stays calm over two paces. -/
theorem Paces.trans (h : Paces p left s t) (h' : Paces p left' t u) : Paces p left' s u :=
  ⟨h'.calm, fun htidy file => (h'.depth htidy file).trans (h.depth htidy file)⟩

/-- A pace may be said of fewer nodes that were left. -/
theorem Paces.mono (h : Paces p left s t) (himp : ∀ node, left node → left' node) :
    Paces p left' s t :=
  ⟨h.calm.mono himp, h.depth⟩

/-- What abides is a pace. -/
theorem Calm.abide (h : s.Calm p left) (hst : Abides p s t) : Paces p left s t :=
  ⟨⟨hst.sturdy, fun key hkey => h.idle key ((hst.resolving key id).mp hkey),
    fun key hkey => h.cleared key ((hst.cleared key id).mp hkey)⟩, fun _ => hst.depth⟩

/-- The store changes, but not its cache. -/
theorem Calm.maintain (h : s.Calm p left) {store : Store} (hstore : s.store.Maintains store) :
    Calm p left { s with store } := by
  refine ⟨h.sturdy.maintain hstore, fun key => ?_, fun key hkey => h.cleared key ?_⟩
  · show store.cache.get? key ≠ _
    rw [hstore.cache]
    exact h.idle key
  · change store.cache.get? key = _ at hkey
    rwa [hstore.cache] at hkey

/-- Keys of records local to a node are cleared. -/
theorem Sturdy.clear (hs : s.Sturdy p) {store : Store} (h : s.store.Clears node store) :
    Sturdy p { s with store } where
  store := h.sturdy
  cached key id hid := by
    change store.cache.get? key = _ at hid
    show id.index < store.records.size
    rw [h.records.size]
    rcases h.cache key with hsame | ⟨hcleared, -⟩
    · exact hs.cached key id (hsame ▸ hid)
    · cases hcleared.symm.trans hid
  locals := hs.locals_of h.records
  symbols := hs.symbols

/-- **The walk leaves a node**, and with it the scopes of the symbols that are local to it. -/
theorem Calm.clear (hs : s.Calm p left) {store : Store} (h : s.store.Clears node store) :
    Paces p (fun gone => left gone ∨ gone = node) s { s with store } := by
  refine ⟨⟨hs.sturdy.clear h, fun key => ?_, fun key hkey => ?_⟩, fun _ => h.depth⟩
  · show store.cache.get? key ≠ _
    rcases h.cache key with hsame | ⟨hcleared, -⟩
    · rw [hsame]
      exact hs.idle key
    · rw [hcleared]
      nofun
  · change store.cache.get? key = _ at hkey
    rcases h.cache key with hsame | ⟨-, i, r, hr, hrkey, hscope⟩
    · obtain ⟨symbol, other, hsymbol, hother, hleft⟩ := hs.cleared key (hsame ▸ hkey)
      exact ⟨symbol, other, hsymbol, hother, .inl hleft⟩
    · obtain ⟨symbol, hsymbol, hnode⟩ := hs.sturdy.locals i r hr node hscope
      exact ⟨symbol, node, hsymbol.trans hrkey, hnode, .inr rfl⟩

/-! ### Visiting an identifier -/

/-- **Why a visit fails**: the record of the symbol that is mentioned cannot be found or made. -/
theorem visitIdentifier_explained (hs : s.Sturdy w.program) (node : NodeId) :
    Ensures (visitIdentifier w node) s (fun _ t => Abides w.program s t) fun fault t =>
      Abides w.program s t ∧ ∃ symbol, w.program.symbolAt node = some symbol ∧
        Explains w.program s ⟨symbol, some node⟩ fault := by
  unfold visitIdentifier
  dsimp only
  cases hsymbol : w.program.symbolAt node with
  | none => exact ensures_pure.mpr (.refl hs)
  | some symbol =>
      have hmention (id : RecordId) (t : Session) : Braces w.program (do
          unless ← Store.hasInfo id
              { file := w.program.fileOf node, range := w.program.range node } do
            let span ← lineRange w (w.program.fileOf node) (w.program.range node)
            let range ← emit (Graph.vertex
              (.range span (some (.reference (w.program.textOf node)))))
            Store.addRange w (w.program.fileOf node) range.id
            let hub ← Store.resultSet id
            discard (emit (Graph.link .next range.id hub.id))
            Store.addReference w id (w.program.fileOf node) (.range range.id) .references :
          Running Unit) t fun _ _ => True := by
        refine (store_braces Store.hasInfo_braces).bind fun known u _ _ _ => ?_
        split
        · exact follows_pure trivial
        · refine lineRange_braces.bind fun _ _ _ _ _ => vertex_braces.bind fun range _ _ _ _ => ?_
          refine (store_braces Store.addRange_braces).bind fun _ _ _ _ _ => ?_
          refine (store_braces Store.resultSet_braces).bind fun hub _ _ _ _ => ?_
          refine link_braces.bind fun _ _ _ _ _ => ?_
          exact (store_braces Store.addReference_braces).mono fun _ _ _ => trivial
      refine ensures_bind.mpr ((resolve_explained hs symbol (some node)).mono (fun id t ht => ?_)
        fun fault t hfault => ⟨hfault.1, symbol, rfl, hfault.2⟩)
      refine ((hmention id t).after hs ht.1).mono (fun _ _ hu => hu.1) fun fault u hfault => ?_
      exact ⟨hfault.2, symbol, rfl, .ordinary hfault.1⟩

/-- Where no key is reserved, a symbol that was met somewhere can only be missing for a reason in
the program. -/
theorem Explains.accounts (h : Explains p s ⟨symbol, some node⟩ fault) (hs : s.Calm p left) :
    p.Accounts fault := by
  cases h with
  | ordinary hfault => exact .ordinary hfault
  | cleared => exact .cleared _
  | reserved _ hkey => exact absurd hkey (hs.idle _)
  | circular _ hneeds hkey => exact .circular hneeds hkey
  | placeless hreach hnone hrequires =>
      rcases hreach.cases_tail with rfl | ⟨z, -, hneeds⟩
      · cases hnone
      · exact .placeless hneeds hnone hrequires

/-! ### Plans that keep calm -/

namespace Plan

/-- Where the walk has come to an identifier it is calm. -/
def Begins (p : Program) (mark : Option Milestone) (s _t : Session) : Prop :=
  ∀ x, mark = some (.identifier x) → s.CalmAt p x

/-- An operation without a milestone begins nothing. -/
theorem begins_none {t : Session} : Begins p none s t := nofun

/-- A plan that leads to calm sessions, with reasons for its failures. -/
abbrev Keeps (p : Program) (plan : Plan α) (s : Session) (post : Session → Prop) : Prop :=
  plan.Obeys (Begins p) s (fun _ t => post t) fun fault _ => p.Accounts fault

/-- A plan that keeps, keeps with less said of the end. -/
theorem Keeps.mono {plan : Plan α} {post post' : Session → Prop} (h : Keeps p plan s post)
    (hp : ∀ t, post t → post' t) : Keeps p plan s post' :=
  Obeys.mono h (fun _ t ht => hp t ht) fun _ _ hfault => hfault

/-- One plan after the other, seen from where the first one began. -/
theorem Keeps.bind {plan : Plan α} {go : α → Plan β} (h : Keeps p plan s fun t => Paces p left s t)
    (hgo : ∀ a t, t.Calm p left → Keeps p (go a) t fun u => Paces p left' t u) :
    Keeps p (plan >>= go) s fun t => Paces p left' s t :=
  obeys_bind.mpr (Obeys.mono h
    (fun a t ht => (hgo a t ht.calm).mono fun _ hu => ht.trans hu) fun _ _ hfault => hfault)

/-- A plan that comes to no identifier keeps calm if what it does keeps calm. -/
theorem Unmarked.keeps {plan : Plan α} {post : Session → Prop} (h : plan.Unmarked)
    (hrun : Ensures plan.run s (fun _ t => post t) fun fault _ => p.Accounts fault) :
    Keeps p plan s post :=
  Passes.obeys h (fun _ _ => begins_none) hrun

/-- A single operation keeps if its faults are accounted for and it comes to no identifier. -/
theorem keeps_single {mark : Option Milestone} {act : Running α} {post : Session → Prop}
    (hmark : ∀ x, mark ≠ some (.identifier x))
    (h : Ensures act s (fun _ t => post t) fun fault _ => p.Accounts fault) :
    Keeps p (single mark act) s post :=
  obeys_single (h.mono (fun _ _ ht => ⟨fun x hx => absurd hx (hmark x), ht⟩)
    fun _ _ hfault => ⟨fun x hx => absurd hx (hmark x), hfault⟩)

/-- An unmarked operation keeps if its faults are accounted for. -/
theorem keeps_take {act : Running α} {post : Session → Prop}
    (h : Ensures act s (fun _ t => post t) fun fault _ => p.Accounts fault) :
    Keeps p (take act) s post :=
  keeps_single nofun h

/-- From a calm session an operation that breaks nothing is a pace. -/
theorem keeps_braces {act : Running α} {post : α → Session → Prop} (hs : s.Calm p left)
    (h : Braces p act s post) : Keeps p (take act) s fun t => Paces p left s t :=
  keeps_take ((h hs.sturdy).mono (fun _ _ ht => hs.abide ht.1) fun _ _ hfault => .ordinary hfault.1)

/-- From tables about symbols that follow from the program, these change at most in overrides. -/
def asserting (p : Program) : Discipline Session Fault where
  ready s := s.symbols.Founded p
  steps s t := t.store = s.store ∧ t.symbols.Founded p
  blames _ _ _ := False
  refl h := ⟨rfl, h⟩
  trans h h' := ⟨h'.1.trans h.1, h'.2⟩
  keeps _ h := h.2
  carries _ h := h

/-- An operation that asserts overrides or releases them. -/
abbrev Asserts (p : Program) (act : Running α) (s : Session) : Prop :=
  (asserting p).Follows act s fun _ _ => True

/-- Overrides that come from the program may be asserted through the session. -/
theorem symbols_asserts {act : StateM Symbols α} {post : α → Prop}
    (h : Symbols.Grounds p act s.symbols post) : Asserts p (liftM act) s :=
  fun hs => ensures_onPartSafely.mpr ⟨⟨rfl, (h hs).1⟩, trivial⟩

/-- From a calm session overrides that come from the program are a pace. -/
theorem keeps_asserts {act : Running α} (hs : s.Calm p left) (h : Asserts p act s) :
    Keeps p (take act) s fun t => Paces p left s t := by
  refine keeps_take ((h hs.sturdy.symbols).mono (fun _ t ht => ?_) fun _ _ hfalse => hfalse.elim)
  obtain ⟨⟨hstore, hfounded⟩, -⟩ := ht
  refine ⟨⟨⟨?_, ?_, ?_, hfounded⟩, ?_, ?_⟩, fun _ => ?_⟩
  all_goals rw [hstore]
  · exact hs.sturdy.store
  · exact hs.sturdy.cached
  · exact hs.sturdy.locals
  · exact hs.idle
  · exact hs.cleared
  · exact fun _ => rfl

/-- What comes last is done however the plan ends, and does not hide its fault. -/
theorem keeps_andThen {walk last : Plan Unit} {post post' : Session → Prop}
    (h : Keeps p walk s post) (hlast : ∀ t, post t → Keeps p last t post')
    (hunmarked : last.Unmarked) : Keeps p (walk.andThen last) s post' := by
  refine obeys_andThen.mpr (Obeys.mono h (fun _ t ht => hlast t ht) fun fault t hfault => ?_)
  exact Passes.obeys hunmarked (fun _ _ => begins_none)
    ((ensures_true last.run t).mono (fun _ _ _ => hfault) fun _ _ _ => hfault)

/-- From a calm session looking for a record is a pace, and its faults are accounted for. -/
theorem resolve_keeps (hs : s.Calm w.program left) :
    Keeps w.program (discard (resolve w symbol (some node))) s
      fun t => Paces w.program left s t := by
  refine Unmarked.keeps (resolve_unmarked symbol _).discard ?_
  rw [run_discard, run_resolve]
  exact ensures_discard.mpr ((resolve_explained hs.sturdy symbol (some node)).mono
    (fun _ _ ht => hs.abide ht.1) fun _ _ hfault => hfault.2.accounts hs)

/-- The walk comes to an identifier that is not below a scope that was left. -/
theorem arrives_keeps (hs : s.Calm w.program left)
    (haway : w.program.Branching → w.program.Away left node) :
    Keeps w.program (single (some (.identifier node)) (pure () : Running Unit)) s
      fun t => Paces w.program left s t := by
  refine obeys_single (ensures_pure.mpr ⟨fun x hx => ?_, hs.paces⟩)
  cases hx
  exact ⟨left, hs, fun hbranches gone hgone => haway hbranches gone hgone node .refl⟩

/-- An identifier is recorded at its own pace: its record is looked for, and then referred to. -/
theorem visitIdentifier_keeps (hs : s.Calm w.program left) :
    Keeps w.program (visitIdentifier w node) s fun t => Paces w.program left s t := by
  refine Unmarked.keeps visitIdentifier_unmarked ?_
  rw [run_visitIdentifier]
  refine (visitIdentifier_explained hs.sturdy node).mono (fun _ _ ht => hs.abide ht)
    fun fault t hfault => ?_
  obtain ⟨-, symbol, -, hexplains⟩ := hfault
  exact hexplains.accounts hs

/-! ### Entering -/

variable {walk : Plan Unit} {file : FileId}

/-- By induction on the targets: a file asserts only what the program says. -/
theorem assertExports_asserts {module : SymbolRef} : ∀ (targets : List SymbolRef) (s : Session),
    (∀ target ∈ targets, w.program.Adopts (w.program.key target) module) →
      Asserts w.program (assertExports w module targets) s
  | [], _, _ => follows_pure trivial
  | target :: targets, s, h => by
      refine (symbols_asserts (Symbols.addParent_grounds (h target List.mem_cons_self))).bind
        fun _ _ _ _ _ => ?_
      refine (symbols_asserts Symbols.addExport_grounds).bind fun _ t _ _ _ => ?_
      exact (assertExports_asserts targets _ fun other hother =>
        h other (List.mem_cons_of_mem _ hother)).bind fun _ _ _ _ _ => follows_pure trivial

/-- A file asserts its exports. -/
theorem exportTargets_asserts {module : SymbolRef} (hkind : w.program.kind node = .sourceFile)
    (hmodule : w.program.fileSymbol (w.program.fileOf node) = some module) :
    Asserts w.program (assertExports w module (w.program.exportTargets node)) s :=
  assertExports_asserts _ s fun target htarget => ⟨node, target, hkind, hmodule, htarget, rfl⟩

/-- A type alias asserts only what the program says. -/
theorem assertForwards_asserts (hkind : w.program.kind node = .typeAliasDeclaration) :
    Asserts w.program (assertForwards w node) s := by
  unfold assertForwards
  dsimp only
  split
  · exact follows_pure trivial
  · exact symbols_asserts (Symbols.forward_grounds hkind)

/-- Overrides that are released leave a calm session. -/
theorem underOverrides_keeps {overrides : List Override}
    (h : Keeps p walk s fun t => Paces p left s t) :
    Keeps p (underOverrides overrides walk) s fun t => Paces p left s t := by
  refine keeps_andThen h (fun t ht => ?_) (.forM_nil _ fun _ => take_unmarked)
  refine (Obeys.forM (fun _ u => Paces p left s u) (fun override _ u hu => ?_) ht).mono
    (fun _ _ hu => hu) fun _ _ hfault => hfault
  exact (keeps_asserts hu.calm (symbols_asserts Symbols.release_grounds)).mono
    fun _ hv => hu.trans hv

/-- **What is opened is closed**, and the containers around it are left alone. -/
theorem insideContainer_keeps {range : ElementId} (hs : s.Calm p left)
    (hwalk : ∀ t, t.Calm p left → Keeps p walk t fun u => Paces p left' t u) :
    Keeps p (do
      take (Store.beginContainer w file range)
      insideContainer w file walk) s fun t => Paces p left' s t := by
  have hbegin : Keeps p (take (Store.beginContainer w file range)) s fun t => t.Calm p left ∧
      ∀ other, t.store.depth other
        = if other = file then s.store.depth file + 1 else s.store.depth other :=
    keeps_take (ensures_onPart.mpr ((Store.beginContainer_braces hs.sturdy.store).mono
      (fun _ store hstore => ⟨hs.maintain hstore.1, hstore.2⟩) fun _ _ hfault => .ordinary hfault.1))
  refine obeys_bind.mpr (Obeys.mono hbegin (fun _ t ht => ?_) fun _ _ hfault => hfault)
  obtain ⟨ht, hopened⟩ := ht
  refine keeps_andThen (hwalk t ht) (fun u hu => keeps_take ?_) take_unmarked
  refine ensures_onPart.mpr ((Store.endContainer_braces hu.calm.sturdy.store).mono
    (fun _ store hstore => ⟨hu.calm.maintain hstore.1, fun htidy other => ?_⟩)
    fun fault _ hfault => ?_)
  · refine (hstore.2 other).trans ?_
    rw [hu.depth htidy, hu.depth htidy, hopened, hopened, if_pos rfl]
    split
    · rename_i heq
      rw [heq]
      rfl
    · rfl
  · rcases hfault.2 with hfault | ⟨hzero, hfault⟩
    · exact .ordinary hfault
    · refine .untidy (fun htidy => ?_) hfault
      rw [hu.depth htidy, hopened, if_pos rfl] at hzero
      cases hzero

/-- A walk goes on inside the container of a name, or as it is where the name has none. -/
theorem insideNamed_keeps {name : NodeId} (hs : s.Calm w.program left)
    (hwalk : ∀ t, t.Calm w.program left → Keeps w.program walk t fun u =>
      Paces w.program left' t u) :
    Keeps w.program (insideNamed w file name walk) s fun t => Paces w.program left' s t := by
  have hrange : Braces w.program (definitionRange name) s fun _ _ => True :=
    follows_get (follows_pure trivial)
  refine (keeps_braces hs hrange).bind fun found t ht => ?_
  cases found with
  | none => exact hwalk t ht
  | some range => exact insideContainer_keeps ht hwalk

/-- A declaration keeps what the walk inside it keeps. -/
theorem insideDocumentSymbol_keeps {declaration : NodeId} (hs : s.Calm w.program left)
    (hwalk : ∀ t, t.Calm w.program left → Keeps w.program walk t fun u =>
      Paces w.program left' t u) :
    Keeps w.program (insideDocumentSymbol w declaration walk) s
      fun t => Paces w.program left' s t := by
  unfold insideDocumentSymbol
  cases w.program.nameOf declaration with
  | none => exact hwalk s hs
  | some name =>
      dsimp only
      cases w.program.symbolAt name with
      | none => exact insideNamed_keeps hs hwalk
      | some symbol => exact (resolve_keeps hs).bind fun _ _ ht => insideNamed_keeps ht hwalk

/-- A file keeps what the walk inside it keeps, under overrides that come from the program. -/
theorem insideSourceFile_keeps (hs : s.Calm w.program left)
    (hkind : w.program.kind node = .sourceFile)
    (hwalk : ∀ t, t.Calm w.program left → Keeps w.program walk t fun u =>
      Paces w.program left' t u) :
    Keeps w.program (insideSourceFile w node walk) s fun t => Paces w.program left' s t := by
  unfold insideSourceFile
  dsimp only
  have hdocument : Braces w.program
      (discard (Store.document w (w.program.fileOf node) : Running Document)) s fun _ _ => True :=
    ((store_braces Store.document_braces).mono fun _ _ _ => trivial).discard
  refine (keeps_braces hs hdocument).bind fun _ t ht => ?_
  cases hmodule : w.program.fileSymbol (w.program.fileOf node) with
  | none => exact hwalk t ht
  | some module =>
      refine (keeps_asserts ht (exportTargets_asserts hkind hmodule)).bind fun overrides u hu => ?_
      exact underOverrides_keeps ((resolve_keeps hu).bind fun _ v hv => hwalk v hv)

/-- By cases of the node: what comes before its children is a pace, and the children are away from
what was left. -/
theorem inside_keeps (hs : s.Calm w.program left)
    (haway : w.program.Branching → w.program.Away left node)
    (hwalk : ∀ t, t.Calm w.program left → Keeps w.program walk t fun u =>
      Paces w.program left' t u) :
    Keeps w.program (inside w node walk) s fun t => Paces w.program left' s t := by
  unfold inside
  split
  · rename_i hkind
    exact insideSourceFile_keeps hs hkind hwalk
  · exact (arrives_keeps hs haway).bind fun _ _ ht =>
      (visitIdentifier_keeps ht).bind fun _ u hu => hwalk u hu
  · rename_i hkind
    refine (keeps_asserts hs (assertForwards_asserts hkind)).bind fun overrides t ht => ?_
    exact underOverrides_keeps (insideDocumentSymbol_keeps ht hwalk)
  · split
    · exact insideDocumentSymbol_keeps hs hwalk
    · exact hwalk s hs

/-! ### Leaving -/

/-- **The walk leaves a node.**  A file can end if no container is open. -/
theorem leave_keeps (hs : s.Calm w.program left)
    (hclosed : w.program.Tidy → w.program.kind node = .sourceFile →
      ∀ file, s.store.depth file = 0) :
    Keeps w.program (leave w node) s
      fun t => Paces w.program (fun gone => left gone ∨ gone = node) s t := by
  have hnode : Keeps w.program (single (some (.node node)) (Store.nodeProcessed w node)) s
      fun t => Paces w.program (fun gone => left gone ∨ gone = node) s t :=
    keeps_single nofun (ensures_onPart.mpr ((Store.nodeProcessed_clears hs.sturdy.store).mono
      (fun _ _ hstore => hs.clear hstore.1) fun _ _ hfault => .ordinary hfault.1))
  unfold leave
  refine obeys_bind.mpr (Obeys.mono hnode (fun _ t ht => ?_) fun _ _ hfault => hfault)
  split
  · rename_i hkind
    have hzero (htidy : w.program.Tidy) (file : FileId) : t.store.depth file = 0 :=
      (ht.depth htidy file).trans (hclosed htidy hkind file)
    have hend : Keeps w.program (single (some (.file (w.program.fileOf node)))
        (Store.endDocument w (w.program.fileOf node))) t
        fun u => Paces w.program (fun gone => left gone ∨ gone = node) t u := by
      refine keeps_single nofun (ensures_onPart.mpr ((Store.endDocument_concludes ht.calm.sturdy.store).mono
        (fun _ store hstore => ⟨ht.calm.maintain hstore.1.1, fun htidy file => ?_⟩)
        fun fault _ hfault => ?_))
      · rw [hzero htidy file]
        exact hstore.1.2 file (hzero htidy file)
      · rcases hfault.2 with hfault | ⟨⟨file, hopen⟩, hfault⟩
        · exact .ordinary hfault
        · exact .untidy (fun htidy => hopen (hzero htidy file)) hfault
    have hfile (u : Session) :
        Braces w.program (fileProcessed w (w.program.fileOf node)) u fun _ _ => True :=
      modify_braces rfl rfl
    exact (hend.bind fun _ u hu => keeps_braces hu (hfile u)).mono fun _ hu => ht.trans hu
  · exact obeys_pure ht

/-! ### Walking -/

/-- **Walking a tree keeps calm.**  What is local to a node of the tree may be cleared by then. -/
theorem visitWithin_keeps (fuel : Nat) : ∀ (node : NodeId) (left : NodeId → Prop) (s : Session),
    s.Calm w.program left → (w.program.Branching → w.program.Away left node) →
    (w.program.Tidy → w.program.kind node = .sourceFile → ∀ file, s.store.depth file = 0) →
    Keeps w.program (visitWithin w fuel node) s
      fun t => Paces w.program (fun gone => left gone ∨ w.program.Under node gone) s t := by
  induction fuel with
  | zero => exact fun _ _ _ _ _ _ => .endless
  | succ fuel ih =>
      intro node left s hs haway hclosed
      -- Of the children that were walked, all may have been left.
      have hwalk (t : Session) (ht : t.Calm w.program left) :
          Keeps w.program ((w.program.children node).forM (visitWithin w fuel)) t fun u =>
            Paces w.program (fun gone => left gone ∨
              ∃ child ∈ w.program.children node, w.program.Under child gone) t u := by
        refine (Obeys.forM (fun rest u => ∃ before, before ++ rest = w.program.children node ∧
          Paces w.program (fun gone => left gone ∨
            ∃ child ∈ before, w.program.Under child gone) t u) (fun child rest u hu => ?_)
          ⟨[], rfl, ht.paces.mono fun _ => .inl⟩).mono (fun _ u hu => ?_) fun _ _ hfault => hfault
        · obtain ⟨before, hchildren, hpaces⟩ := hu
          have hchild : child ∈ w.program.children node :=
            hchildren ▸ List.mem_append_right _ List.mem_cons_self
          refine (ih child _ u hpaces.calm
            (fun hbranches => hbranches.away_child (haway hbranches) hchildren)
            fun htidy hkind => absurd hkind (htidy.kind_child hchild)).mono fun v hv => ?_
          refine ⟨before ++ [child], by rw [← hchildren, List.append_assoc]; rfl,
            (hpaces.trans hv).mono ?_⟩
          rintro gone ((hgone | ⟨sibling, hsibling, hgone⟩) | hgone)
          · exact .inl hgone
          · exact .inr ⟨sibling, List.mem_append_left _ hsibling, hgone⟩
          · exact .inr ⟨child, List.mem_append_right _ (List.mem_singleton_self _), hgone⟩
        · obtain ⟨before, hchildren, hpaces⟩ := hu
          rw [List.append_nil] at hchildren
          exact hchildren ▸ hpaces
      refine obeys_bind.mpr (Obeys.mono (inside_keeps hs haway hwalk) (fun _ t ht => ?_)
        fun _ _ hfault => hfault)
      refine (leave_keeps ht.calm fun htidy hkind file =>
        (ht.depth htidy file).trans (hclosed htidy hkind file)).mono fun u hu => ?_
      refine (ht.trans hu).mono ?_
      rintro gone ((hgone | ⟨child, hchild, hgone⟩) | rfl)
      · exact .inl hgone
      · exact .inr (.head hchild hgone)
      · exact .inr .refl

end Plan

end Session

end SymbolGraph

import SymbolGraph.Proofs.Action

/-!
# Proofs — agendas

An action is a function of the state it starts from, and what it passes through on the way to its
end is lost.  An agenda keeps it: it is a tree of operations, and how an operation ends decides what
comes next.  Running an agenda is an action again; on the way it stops before each operation and
after the last one.

* `Agenda.run`: the action of an agenda, with `run_bind` and its companions along the text.
* `Agenda.stops`: the states between the operations, each with the milestones passed so far.
* `Agenda.ended_mem_stops`: an agenda stops where its action ends.
* `Agenda.begins`: the milestones, each with the state in which its operation begins.
* `Agenda.Obeys`: every operation takes a step, and the ends are as they should be.
* `Agenda.Obeys.stops`, `Agenda.Obeys.pairwise`: what the steps keep holds at every stop, and what
  they relate is related from each stop to all later ones.
* `Agenda.Upholds`: an agenda that leads along a relation from wherever it starts and however it
  ends; such agendas compose.
* `Agenda.Passes`: an agenda that comes to given milestones in their order, and to all of them if it
  ends well; such agendas compose too.
-/

namespace SymbolGraph

open SymbolGraph.Action

variable {ι ε σ α β : Type}

/-- How an action ends, and in which state. -/
def Action.ended (act : EStateM ε σ α) (s : σ) : Except ε α × σ :=
  match act s with
  | .ok a t    => (.ok a, t)
  | .error e t => (.error e, t)

/-- Operations one after the other; some of them are milestones, however they end. -/
inductive Agenda (ι ε σ α : Type) : Type 1
  /-- Nothing is left to do. -/
  | halt (result : Except ε α)
  /-- An operation comes next. -/
  | next {β : Type} (mark : Option ι) (act : EStateM ε σ β)
      (rest : Except ε β → Agenda ι ε σ α)

namespace Agenda

/-! ### Putting agendas together -/

/-- Go on with an agenda that depends on how the one before ended. -/
def follow : Agenda ι ε σ α → (Except ε α → Agenda ι ε σ β) → Agenda ι ε σ β
  | halt result,        go => go result
  | next mark act rest, go => next mark act fun result => (rest result).follow go

/-- A single operation. -/
def single (mark : Option ι) (act : EStateM ε σ α) : Agenda ι ε σ α := next mark act halt

instance : Monad (Agenda ι ε σ) where
  pure a := halt (.ok a)
  bind agenda go := agenda.follow fun
    | .ok a    => go a
    | .error e => halt (.error e)

/-- Fail. -/
def fail (e : ε) : Agenda ι ε σ α := halt (.error e)

/-- Say how an agenda ended. -/
def attempt (agenda : Agenda ι ε σ α) : Agenda ι ε σ (Except ε α) :=
  agenda.follow fun result => halt (.ok result)

/-- When an agenda fails, tidy up and fail all the same. -/
def onFailure (agenda : Agenda ι ε σ α) (tidy : Agenda ι ε σ Unit) : Agenda ι ε σ α := do
  match ← agenda.attempt with
  | .ok a    => return a
  | .error e => do
      tidy
      fail e

/-- One agenda and then, however it ended, another.  The first failure is the one reported. -/
def andThen (agenda last : Agenda ι ε σ Unit) : Agenda ι ε σ Unit := do
  let first ← agenda.attempt
  let second ← last.attempt
  halt first
  halt second

/-! ### Running an agenda -/

/-- The action of an agenda. -/
def run : Agenda ι ε σ α → EStateM ε σ α
  | halt result,     s => Action.ofExcept result s
  | next _ act rest, s => (rest (ended act s).1).run (ended act s).2

/-- A halted agenda gives its result. -/
@[simp] theorem run_halt (result : Except ε α) :
    (halt result : Agenda ι ε σ α).run = Action.ofExcept result := rfl

/-- A value is given without doing anything. -/
@[simp] theorem run_pure (a : α) : (pure a : Agenda ι ε σ α).run = pure a := rfl

/-- A single operation is done as it is. -/
@[simp] theorem run_single (mark : Option ι) (act : EStateM ε σ α) : (single mark act).run = act := by
  funext s
  show Action.ofExcept (ended act s).1 (ended act s).2 = act s
  unfold ended
  cases act s with
  | ok a t => rfl
  | error e t => rfl

/-- What follows an agenda is given its result, good or bad. -/
theorem run_follow (agenda : Agenda ι ε σ α) (go : Except ε α → Agenda ι ε σ β) :
    (agenda.follow go).run = Action.attempt agenda.run >>= fun result => (go result).run := by
  induction agenda with
  | halt result => cases result <;> rfl
  | next mark act rest ih =>
      funext s
      exact congrFun (ih (ended act s).1) (ended act s).2

/-- What follows a success is done after it. -/
@[simp] theorem run_bind (agenda : Agenda ι ε σ α) (go : α → Agenda ι ε σ β) :
    (agenda >>= go).run = agenda.run >>= fun a => (go a).run := by
  refine (run_follow agenda _).trans ?_
  funext s
  simp only [bind, EStateM.bind, Action.attempt]
  cases agenda.run s with
  | ok a t => rfl
  | error e t => rfl

/-- Dropping the value drops it from the action. -/
@[simp] theorem run_discard (agenda : Agenda ι ε σ α) : (discard agenda).run = discard agenda.run := by
  refine (run_bind agenda _).trans ?_
  funext s
  simp only [bind, EStateM.bind, discard, Functor.discard, Functor.mapConst, EStateM.map,
    Function.comp]
  cases agenda.run s with
  | ok a t => rfl
  | error e t => rfl

/-- A fault is caught as it is by the action. -/
@[simp] theorem run_attempt (agenda : Agenda ι ε σ α) :
    agenda.attempt.run = Action.attempt agenda.run := by
  refine (run_follow agenda _).trans ?_
  funext s
  simp only [bind, EStateM.bind, Action.attempt]
  cases agenda.run s with
  | ok a t => rfl
  | error e t => rfl

/-- Tidying up is done where the action does it. -/
@[simp] theorem run_onFailure (agenda : Agenda ι ε σ α) (tidy : Agenda ι ε σ Unit) :
    (agenda.onFailure tidy).run = Action.onFailure agenda.run tidy.run := by
  unfold onFailure Action.onFailure
  rw [run_bind, run_attempt]
  refine bind_congr fun result => ?_
  cases result with
  | ok a => rfl
  | error e => exact run_bind _ _

/-- What comes last is done where the action does it. -/
@[simp] theorem run_andThen (agenda last : Agenda ι ε σ Unit) :
    (agenda.andThen last).run = Action.andThen agenda.run last.run := by
  simp only [andThen, Action.andThen, run_bind, run_attempt, run_halt]

/-- Going through a list does so with the actions. -/
@[simp] theorem run_forM (list : List α) (go : α → Agenda ι ε σ PUnit) :
    (list.forM go).run = list.forM fun a => (go a).run := by
  induction list with
  | nil => rfl
  | cons a rest ih =>
      show (go a >>= fun _ => rest.forM go).run = _
      rw [run_bind, ih]
      rfl

/-! ### Where an agenda stops -/

/-- The states between operations, each with the milestones passed so far. -/
def stops : Agenda ι ε σ α → List ι → σ → List (List ι × σ)
  | halt _,             past, s => [(past, s)]
  | next mark act rest, past, s =>
      (past, s) :: (rest (ended act s).1).stops (past ++ mark.toList) (ended act s).2

/-- **An agenda stops where its action ends.** -/
theorem ended_mem_stops (agenda : Agenda ι ε σ α) (past : List ι) (s : σ) :
    ∃ stop ∈ agenda.stops past s, stop.2 = (ended agenda.run s).2 := by
  induction agenda generalizing past s with
  | halt result =>
      refine ⟨(past, s), List.mem_singleton_self _, ?_⟩
      cases result with
      | ok a => rfl
      | error e => rfl
  | next mark act rest ih =>
      obtain ⟨stop, hstop, heq⟩ := ih (ended act s).1 (past ++ mark.toList) (ended act s).2
      exact ⟨stop, List.mem_cons_of_mem _ hstop, heq⟩

/-- The milestones of an agenda, each with the state in which its operation begins. -/
def begins : Agenda ι ε σ α → σ → List (ι × σ)
  | halt _,             _ => []
  | next mark act rest, s =>
      mark.toList.map (fun milestone => (milestone, s))
        ++ (rest (ended act s).1).begins (ended act s).2

/-! ### What an agenda obeys -/

section Obeys

variable {step : Option ι → σ → σ → Prop} {s : σ} {agenda : Agenda ι ε σ α}
  {post post' : α → σ → Prop} {bad bad' : ε → σ → Prop}

/-- Every operation takes a step, and the agenda ends well with `post` or fails with `bad`. -/
def Obeys (step : Option ι → σ → σ → Prop) :
    Agenda ι ε σ α → σ → (α → σ → Prop) → (ε → σ → Prop) → Prop
  | halt (.ok a),       s, post, _   => post a s
  | halt (.error e),    s, _,    bad => bad e s
  | next mark act rest, s, post, bad =>
      Ensures act s (fun b t => step mark s t ∧ (rest (.ok b)).Obeys step t post bad)
        fun e t => step mark s t ∧ (rest (.error e)).Obeys step t post bad

/-- What an agenda obeys, it also obeys with less said of the end. -/
theorem Obeys.mono (h : agenda.Obeys step s post bad) (hp : ∀ a t, post a t → post' a t)
    (hb : ∀ e t, bad e t → bad' e t) : agenda.Obeys step s post' bad' := by
  induction agenda generalizing s with
  | halt result =>
      cases result with
      | ok a => exact hp a s h
      | error e => exact hb e s h
  | next mark act rest ih =>
      refine Ensures.mono h (fun b t ht => ?_) fun e t ht => ?_
      · exact ⟨ht.1, ih _ ht.2⟩
      · exact ⟨ht.1, ih _ ht.2⟩

theorem obeys_pure {a : α} (h : post a s) : (pure a : Agenda ι ε σ α).Obeys step s post bad := h

/-- A single operation obeys what it does in one step. -/
theorem obeys_single {mark : Option ι} {act : EStateM ε σ α}
    (h : Ensures act s (fun a t => step mark s t ∧ post a t) fun e t => step mark s t ∧ bad e t) :
    (single mark act).Obeys step s post bad := h

/-- What comes after an agenda goes on where that ended, well or not. -/
theorem obeys_follow {go : Except ε α → Agenda ι ε σ β} {post : β → σ → Prop} :
    (agenda.follow go).Obeys step s post bad ↔
      agenda.Obeys step s (fun a t => (go (.ok a)).Obeys step t post bad)
        fun e t => (go (.error e)).Obeys step t post bad := by
  induction agenda generalizing s with
  | halt result => cases result <;> exact Iff.rfl
  | next mark act rest ih =>
      constructor
      · intro h
        exact Ensures.mono h (fun b t ht => ⟨ht.1, (ih _).mp ht.2⟩)
          fun e t ht => ⟨ht.1, (ih _).mp ht.2⟩
      · intro h
        exact Ensures.mono h (fun b t ht => ⟨ht.1, (ih _).mpr ht.2⟩)
          fun e t ht => ⟨ht.1, (ih _).mpr ht.2⟩

/-- What comes after a success goes on where that ended. -/
theorem obeys_bind {go : α → Agenda ι ε σ β} {post : β → σ → Prop} :
    (agenda >>= go).Obeys step s post bad ↔
      agenda.Obeys step s (fun a t => (go a).Obeys step t post bad) bad :=
  obeys_follow

/-- A value that is dropped need not be told. -/
theorem obeys_discard {post : Unit → σ → Prop} :
    (discard agenda).Obeys step s post bad ↔ agenda.Obeys step s (fun _ t => post () t) bad :=
  obeys_follow

/-- A loop over a list, by an assertion about the rounds still to come. -/
theorem Obeys.forM {go : β → Agenda ι ε σ PUnit} (inv : List β → σ → Prop)
    (hgo : ∀ b rest t, inv (b :: rest) t → (go b).Obeys step t (fun _ u => inv rest u) bad) :
    ∀ {list : List β} {s : σ}, inv list s → (list.forM go).Obeys step s (fun _ t => inv [] t) bad
  | [], _, h => obeys_pure h
  | b :: rest, s, h => obeys_bind.mpr ((hgo b rest s h).mono
      (fun _ _ ht => Obeys.forM inv hgo ht) fun _ _ hb => hb)

/-- A fault that is caught is a value. -/
theorem obeys_attempt {post : Except ε α → σ → Prop} :
    agenda.attempt.Obeys step s post bad ↔
      agenda.Obeys step s (fun a t => post (.ok a) t) fun e t => post (.error e) t :=
  obeys_follow

/-- Tidying up goes on where the failure was. -/
theorem obeys_onFailure {tidy : Agenda ι ε σ Unit} :
    (agenda.onFailure tidy).Obeys step s post bad ↔
      agenda.Obeys step s post fun e t => tidy.Obeys step t (fun _ u => bad e u) bad := by
  unfold onFailure
  rw [obeys_bind, obeys_attempt]
  constructor
  · intro h
    exact h.mono (fun _ _ h => h) fun e t h => obeys_bind.mp h
  · intro h
    exact h.mono (fun _ _ h => h) fun e t h => obeys_bind.mpr h

/-- The second agenda comes however the first one ended. -/
theorem obeys_andThen {agenda last : Agenda ι ε σ Unit} {post : Unit → σ → Prop} :
    (agenda.andThen last).Obeys step s post bad ↔
      agenda.Obeys step s (fun _ t => last.Obeys step t post bad)
        fun e t => last.Obeys step t (fun _ u => bad e u) fun _ u => bad e u := by
  unfold andThen
  simp only [obeys_bind, obeys_attempt, Obeys]

/-- An agenda ends as its first operation and then the rest do. -/
theorem ensures_next {γ : Type} {mark : Option ι} {act : EStateM ε σ γ}
    {rest : Except ε γ → Agenda ι ε σ α} : Ensures (next mark act rest).run s post bad ↔
      Ensures act s (fun b t => Ensures (rest (.ok b)).run t post bad)
        fun e t => Ensures (rest (.error e)).run t post bad := by
  simp only [Ensures, run, ended]
  cases act s <;> exact Iff.rfl

/-- An agenda that obeys ends as it should. -/
theorem Obeys.ensures (h : agenda.Obeys step s post bad) : Ensures agenda.run s post bad := by
  induction agenda generalizing s with
  | halt result =>
      cases result with
      | ok a => exact h
      | error e => exact h
  | next mark act rest ih =>
      exact ensures_next.mpr (Ensures.mono h (fun b t ht => ih _ ht.2) fun e t ht => ih _ ht.2)

/-- What a step says of where it begins holds at the beginning of every milestone. -/
theorem Obeys.begins (good : ι → σ → Prop) (h : agenda.Obeys step s post bad)
    (hstep : ∀ milestone s t, step (some milestone) s t → good milestone s) :
    ∀ visit ∈ agenda.begins s, good visit.1 visit.2 := by
  induction agenda generalizing s with
  | halt result => exact nofun
  | next mark act rest ih =>
      -- The first operation takes a step, however it ends, and so does the rest.
      have hcons {t : σ} {result : Except ε _} (ht : step mark s t)
          (hrest : (rest result).Obeys step t post bad) :
          ∀ visit ∈ mark.toList.map (fun milestone => (milestone, s)) ++ (rest result).begins t,
            good visit.1 visit.2 := by
        intro visit hvisit
        rcases List.mem_append.mp hvisit with hvisit | hvisit
        · obtain ⟨milestone, hmilestone, rfl⟩ := List.mem_map.mp hvisit
          rw [Option.mem_toList.mp hmilestone] at ht
          exact hstep milestone s t ht
        · exact ih _ hrest visit hvisit
      unfold Agenda.begins ended
      cases hact : act s with
      | ok b t =>
          obtain ⟨ht, hrest⟩ := Ensures.of_ok h hact
          exact hcons ht hrest
      | error e t =>
          obtain ⟨ht, hrest⟩ := Ensures.of_error h hact
          exact hcons ht hrest

/-- What a step keeps holds at every stop. -/
theorem Obeys.stops (inv : List ι → σ → Prop) (h : agenda.Obeys step s post bad)
    (hstep : ∀ past mark s t, step mark s t → inv past s → inv (past ++ mark.toList) t)
    {past : List ι} (hs : inv past s) : ∀ stop ∈ agenda.stops past s, inv stop.1 stop.2 := by
  induction agenda generalizing s past with
  | halt result =>
      intro stop hstop
      cases List.mem_singleton.mp hstop
      exact hs
  | next mark act rest ih =>
      intro stop hstop
      rcases List.mem_cons.mp hstop with rfl | hstop
      · exact hs
      · cases hact : act s with
        | ok b t =>
            obtain ⟨ht, hrest⟩ := Ensures.of_ok h hact
            rw [ended, hact] at hstop
            exact ih _ hrest (hstep past mark s t ht hs) stop hstop
        | error e t =>
            obtain ⟨ht, hrest⟩ := Ensures.of_error h hact
            rw [ended, hact] at hstop
            exact ih _ hrest (hstep past mark s t ht hs) stop hstop

/-- What the steps relate is related from each stop to all later ones. -/
theorem Obeys.pairwise (inv : List ι → σ → Prop) {rel : List ι × σ → List ι × σ → Prop}
    [IsPreorder (List ι × σ) rel] (h : agenda.Obeys step s post bad)
    (hstep : ∀ past mark s t, step mark s t → inv past s →
      inv (past ++ mark.toList) t ∧ rel (past, s) (past ++ mark.toList, t))
    {past : List ι} (hs : inv past s) : (agenda.stops past s).Pairwise rel := by
  induction agenda generalizing s past with
  | halt result => exact List.pairwise_singleton _ _
  | next mark act rest ih =>
      -- The first stop is related to the second one, and the invariant carries that on.
      have hlater {t : σ} {result : Except ε _} (ht : step mark s t)
          (hrest : (rest result).Obeys step t post bad) :
          ((past, s) :: (rest result).stops (past ++ mark.toList) t).Pairwise rel := by
        obtain ⟨hinv, hfirst⟩ := hstep past mark s t ht hs
        refine List.pairwise_cons.mpr ⟨fun stop hstop => ?_, ih _ hrest hinv⟩
        refine (Obeys.stops (fun past' u => inv past' u ∧ rel (past, s) (past', u)) hrest
          (fun past' mark' u v hstep' hu => ?_) ⟨hinv, hfirst⟩ stop hstop).2
        obtain ⟨hv, huv⟩ := hstep past' mark' u v hstep' hu.1
        exact ⟨hv, trans_of rel hu.2 huv⟩
      unfold Agenda.stops ended
      cases hact : act s with
      | ok b t =>
          obtain ⟨ht, hrest⟩ := Ensures.of_ok h hact
          exact hlater ht hrest
      | error e t =>
          obtain ⟨ht, hrest⟩ := Ensures.of_error h hact
          exact hlater ht hrest

end Obeys

/-! ### However it ends -/

section Upholds

variable {step : Option ι → σ → σ → Prop} {rel : σ → σ → Prop} {agenda : Agenda ι ε σ α}

/-- From wherever the agenda starts and however it ends, its operations take steps, and it leads
along `rel`. -/
def Upholds (step : Option ι → σ → σ → Prop) (rel : σ → σ → Prop) (agenda : Agenda ι ε σ α) :
    Prop :=
  ∀ s, agenda.Obeys step s (fun _ t => rel s t) fun _ t => rel s t

/-- A single operation upholds a relation that it keeps. -/
theorem upholds_single {mark : Option ι} {act : EStateM ε σ α}
    (h : Stays (fun s t => step mark s t ∧ rel s t) act) : (single mark act).Upholds step rel :=
  fun s => obeys_single (h s)

/-- Catching a fault keeps what the agenda upholds. -/
theorem Upholds.attempt (h : agenda.Upholds step rel) : agenda.attempt.Upholds step rel :=
  fun s => obeys_attempt.mpr (h s)

variable [IsPreorder σ rel]

/-- Where nothing is done everything is upheld. -/
theorem upholds_halt {result : Except ε α} : (halt result : Agenda ι ε σ α).Upholds step rel := by
  intro s
  cases result with
  | ok a => exact refl_of rel s
  | error e => exact refl_of rel s

theorem upholds_pure {a : α} : (pure a : Agenda ι ε σ α).Upholds step rel := upholds_halt

theorem upholds_fail {e : ε} : (fail e : Agenda ι ε σ α).Upholds step rel := upholds_halt

/-- What an agenda does after some steps, seen from where they began. -/
theorem Upholds.after (h : agenda.Upholds step rel) {s t : σ} (hst : rel s t) :
    agenda.Obeys step t (fun _ u => rel s u) fun _ u => rel s u :=
  (h t).mono (fun _ _ htu => trans_of rel hst htu) fun _ _ htu => trans_of rel hst htu

/-- What both parts uphold is upheld one after the other. -/
theorem Upholds.bind {go : α → Agenda ι ε σ β} (h : agenda.Upholds step rel)
    (hgo : ∀ a, (go a).Upholds step rel) : (agenda >>= go).Upholds step rel :=
  fun s => obeys_bind.mpr ((h s).mono (fun a _ hst => (hgo a).after hst) fun _ _ hst => hst)

theorem Upholds.discard (h : agenda.Upholds step rel) : (discard agenda).Upholds step rel :=
  h.bind fun _ => upholds_pure

/-- What every round upholds is upheld by all rounds. -/
theorem Upholds.forM {go : α → Agenda ι ε σ PUnit} (list : List α)
    (hgo : ∀ a, (go a).Upholds step rel) : (list.forM go).Upholds step rel := by
  induction list with
  | nil => exact upholds_pure
  | cons a rest ih => exact (hgo a).bind fun _ => ih

end Upholds

/-! ### What an agenda passes -/

section Passes

variable {agenda : Agenda ι ε σ α} {milestones later : List ι} {s t : σ}

/-- The milestones that an agenda comes to, also if it fails. -/
def passed (agenda : Agenda ι ε σ α) (s : σ) : List ι := (agenda.begins s).map Prod.fst

/-- The milestone of an operation is passed before those of the rest. -/
theorem passed_next {γ : Type} {mark : Option ι} {act : EStateM ε σ γ}
    {rest : Except ε γ → Agenda ι ε σ α} : (next mark act rest).passed s
      = mark.toList ++ (rest (ended act s).1).passed (ended act s).2 := by
  unfold passed
  rw [begins, List.map_append, List.map_map]
  exact congrArg (· ++ _) (List.map_id' _)

/-- An agenda that goes on comes to its own milestones and then to those that follow its end. -/
theorem passed_follow (agenda : Agenda ι ε σ α) (go : Except ε α → Agenda ι ε σ β) (s : σ) :
    (agenda.follow go).passed s
      = agenda.passed s ++ (go (ended agenda.run s).1).passed (ended agenda.run s).2 := by
  induction agenda generalizing s with
  | halt result => cases result <;> rfl
  | next mark act rest ih =>
      rw [passed_next, List.append_assoc]
      exact passed_next.trans (congrArg (mark.toList ++ ·) (ih _ _))

/-- After a success the milestones go on. -/
theorem passed_bind_of_ok {go : α → Agenda ι ε σ β} {a : α} (h : agenda.run s = .ok a t) :
    (agenda >>= go).passed s = agenda.passed s ++ (go a).passed t := by
  refine (passed_follow agenda _ s).trans ?_
  unfold ended
  rw [h]

/-- After a fault no more are passed. -/
theorem passed_bind_of_error {go : α → Agenda ι ε σ β} {e : ε} (h : agenda.run s = .error e t) :
    (agenda >>= go).passed s = agenda.passed s := by
  refine (passed_follow agenda _ s).trans ?_
  unfold ended
  rw [h]
  exact List.append_nil _

/-- Catching a fault passes no milestone and hides none. -/
theorem passed_attempt : agenda.attempt.passed s = agenda.passed s :=
  (passed_follow agenda _ s).trans (List.append_nil _)

/-- An agenda comes to milestones in their order, and to all of them if it ends well. -/
def Passes (agenda : Agenda ι ε σ α) (milestones : List ι) : Prop :=
  ∀ s, agenda.passed s <+: milestones ∧ ∀ a t, agenda.run s = .ok a t → agenda.passed s = milestones

/-- Where none are passed, none are passed from any state. -/
theorem Passes.eq_nil (h : agenda.Passes []) (s : σ) : agenda.passed s = [] :=
  List.prefix_nil.mp (h s).1

theorem passes_nil (h : ∀ s, agenda.passed s = []) : agenda.Passes [] :=
  fun s => ⟨h s ▸ List.prefix_refl _, fun _ _ _ => h s⟩

/-- An agenda that has ended passes none. -/
theorem passes_halt {result : Except ε α} : (halt result : Agenda ι ε σ α).Passes [] :=
  passes_nil fun _ => rfl

theorem passes_pure {a : α} : (pure a : Agenda ι ε σ α).Passes [] := passes_halt

theorem passes_fail {e : ε} : (fail e : Agenda ι ε σ α).Passes [] := passes_halt

/-- A single operation passes its own milestone. -/
theorem passes_single {mark : Option ι} {act : EStateM ε σ α} :
    (single mark act).Passes mark.toList := by
  have hpassed (s : σ) : (single mark act).passed s = mark.toList :=
    passed_next.trans (List.append_nil _)
  exact fun s => ⟨hpassed s ▸ List.prefix_refl _, fun _ _ _ => hpassed s⟩

/-- **One agenda after the other** comes to the milestones of both. -/
theorem Passes.bind {go : α → Agenda ι ε σ β} (h : agenda.Passes milestones)
    (hgo : ∀ a, (go a).Passes later) : (agenda >>= go).Passes (milestones ++ later) := by
  intro s
  obtain ⟨hpassed, hall⟩ := h s
  rw [run_bind]
  cases hrun : agenda.run s with
  | ok a t =>
      rw [passed_bind_of_ok hrun, hall a t hrun]
      obtain ⟨hlater, hrest⟩ := hgo a t
      refine ⟨(List.prefix_append_right_inj _).mpr hlater, fun b u hb => ?_⟩
      obtain ⟨a', t', ha, hb⟩ := bind_eq_ok.mp hb
      cases hrun.symm.trans ha
      rw [hrest b u hb]
  | error e t =>
      rw [passed_bind_of_error hrun]
      refine ⟨hpassed.trans (List.prefix_append _ _), fun b u hb => ?_⟩
      obtain ⟨a, t', ha, -⟩ := bind_eq_ok.mp hb
      cases hrun.symm.trans ha

/-- Dropping the value drops no milestone. -/
theorem Passes.discard (h : agenda.Passes milestones) : (discard agenda).Passes milestones :=
  List.append_nil milestones ▸ h.bind fun _ => passes_pure

/-- A list passes what its rounds pass, in order. -/
theorem Passes.forM {go : α → Agenda ι ε σ PUnit} {each : α → List ι} {list : List α}
    (hgo : ∀ a ∈ list, (go a).Passes (each a)) : (list.forM go).Passes (list.flatMap each) := by
  induction list with
  | nil => exact passes_pure
  | cons a rest ih =>
      exact (hgo a List.mem_cons_self).bind fun _ => ih fun b hb => hgo b (List.mem_cons_of_mem _ hb)

/-- Where no round passes any, the list passes none. -/
theorem Passes.forM_nil {go : α → Agenda ι ε σ PUnit} (list : List α)
    (hgo : ∀ a, (go a).Passes []) : (list.forM go).Passes [] := by
  have hnone : list.flatMap (fun _ => ([] : List ι)) = [] :=
    List.flatMap_eq_nil_iff.mpr fun _ _ => rfl
  rw [← hnone]
  exact .forM fun a _ => hgo a

/-- Without milestones it does not matter how an agenda ends. -/
theorem Passes.attempt (h : agenda.Passes []) : agenda.attempt.Passes [] :=
  passes_nil fun s => passed_attempt.trans (h.eq_nil s)

/-- Tidying up passes none, if its parts pass none. -/
theorem Passes.onFailure {tidy : Agenda ι ε σ Unit} (h : agenda.Passes [])
    (htidy : tidy.Passes []) : (agenda.onFailure tidy).Passes [] := by
  refine h.attempt.bind fun result => ?_
  cases result with
  | ok a => exact passes_pure
  | error e => exact htidy.bind fun _ => passes_fail

/-- Where nothing is asked of an operation that is no milestone, an agenda that comes to none obeys
if its action ends as it should. -/
theorem obeys_of_passed_nil {step : Option ι → σ → σ → Prop} {post : α → σ → Prop}
    {bad : ε → σ → Prop} (hstep : ∀ s t, step none s t) (hnone : agenda.passed s = [])
    (h : Ensures agenda.run s post bad) : agenda.Obeys step s post bad := by
  induction agenda generalizing s with
  | halt result =>
      cases result with
      | ok a => exact h
      | error e => exact h
  | next mark act rest ih =>
      obtain ⟨hmark, hrest⟩ := List.append_eq_nil_iff.mp (passed_next.symm.trans hnone)
      obtain rfl : mark = none := Option.toList_eq_nil_iff.mp hmark
      have hnone : Ensures act s (fun b t => (rest (.ok b)).passed t = [])
          fun e t => (rest (.error e)).passed t = [] := by
        unfold Ensures
        cases hact : act s <;> simpa [ended, hact] using hrest
      exact ((ensures_next.mp h).and hnone).mono (fun b t ht => ⟨hstep s t, ih _ ht.2 ht.1⟩)
        fun e t ht => ⟨hstep s t, ih _ ht.2 ht.1⟩

@[inherit_doc obeys_of_passed_nil]
theorem Passes.obeys {step : Option ι → σ → σ → Prop} {post : α → σ → Prop} {bad : ε → σ → Prop}
    (h : agenda.Passes []) (hstep : ∀ s t, step none s t) (hrun : Ensures agenda.run s post bad) :
    agenda.Obeys step s post bad :=
  obeys_of_passed_nil hstep (h.eq_nil s) hrun

/-- What comes last is no milestone, and does not hide how the agenda ended. -/
theorem Passes.andThen {agenda last : Agenda ι ε σ Unit} (h : agenda.Passes milestones)
    (hlast : last.Passes []) : (agenda.andThen last).Passes milestones := by
  have hpassed (s : σ) : (agenda.andThen last).passed s = agenda.passed s := by
    have hafter (first : Except ε Unit) : (do
        let second ← last.attempt
        halt first
        halt second : Agenda ι ε σ Unit).Passes [] :=
      hlast.attempt.bind fun _ => passes_halt.bind fun _ => passes_halt
    have hfirst : agenda.attempt.run s = .ok (ended agenda.run s).1 (ended agenda.run s).2 := by
      rw [run_attempt]
      unfold Action.attempt ended
      cases agenda.run s <;> rfl
    refine (passed_bind_of_ok hfirst).trans ?_
    rw [passed_attempt, (hafter _).eq_nil, List.append_nil]
  refine fun s => ⟨hpassed s ▸ (h s).1, fun _ u hu => ?_⟩
  rw [run_andThen] at hu
  obtain ⟨t, ht, -⟩ := andThen_eq_ok.mp hu
  exact (hpassed s).trans ((h s).2 _ t ht)

end Passes

end Agenda

end SymbolGraph

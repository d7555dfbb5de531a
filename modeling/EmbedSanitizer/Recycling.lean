import EmbedSanitizer.ThreadEvents

namespace ThreadEvents
open HappensBefore

section Renaming
variable {T U L A : Type*}

def Event.rename (name : T → U) : Event T L A → Event U L A
  | .fork t u => .fork (name t) (name u)
  | .join t u => .join (name t) (name u)
  | .acquire t m => .acquire (name t) m
  | .release t m => .release (name t) m
  | .access t kind a => .access (name t) kind a
  | .skip t => .skip (name t)

-- Happens-before in which threads of one name count as one thread: each of them
-- comes after all that the earlier ones did.
def orderOfNames (name : T → U) : Flow (Event T L A) (Channel U L) :=
  ⟨fun e => (e.rename name).Feeds,fun e => (e.rename name).Draws⟩

variable {name : T → U} {tr : List (Event T L A)}

theorem rename_flow (tr : List (Event T L A)) : List.Forall₂ (fun e e' => (orderOfNames name).feeds e = order.feeds e' ∧
    (orderOfNames name).draws e = order.draws e') tr (tr.map (Event.rename name)) := by
  induction tr with
  | nil => exact .nil
  | cons e rest ih => exact .cons ⟨rfl,rfl⟩ ih

theorem rename_before : Before order (tr.map (Event.rename name)) i j ↔ Before (orderOfNames name) tr i j := by
  constructor
  · intro before
    apply before_forall₂ _ before
    exact (List.Forall₂.flip (rename_flow tr)).imp fun _ _ same => ⟨same.1.symm,same.2.symm⟩
  · exact before_forall₂ (rename_flow tr)

def Channel.rename (name : T → U) : Channel T L → Channel U L
  | .thread t => .thread (name t)
  | .lock m => .lock m

theorem feeds_rename {e : Event T L A} {c : Channel T L} (feeds : e.Feeds c) : (e.rename name).Feeds (c.rename name) := by
  cases e with
  | fork t u => exact feeds.imp (congrArg (Channel.rename name)) (congrArg (Channel.rename name))
  | release t m => exact feeds.imp (congrArg (Channel.rename name)) (congrArg (Channel.rename name))
  | _ => exact congrArg (Channel.rename name) feeds

theorem draws_rename {e : Event T L A} {c : Channel T L} (draws : e.Draws c) : (e.rename name).Draws (c.rename name) := by
  cases e with
  | join t u => exact draws.imp (congrArg (Channel.rename name)) (congrArg (Channel.rename name))
  | acquire t m => exact draws.imp (congrArg (Channel.rename name)) (congrArg (Channel.rename name))
  | _ => exact congrArg (Channel.rename name) draws

theorem before_same_name {e e' : Event T L A} (at_i : tr[i]? = some e) (at_j : tr[j]? = some e') (less : i < j)
    (same : name e.actor = name e'.actor) : Before (orderOfNames name) tr i j := by
  refine .single ⟨less,e,e',.thread (name e.actor),at_i,at_j,feeds_rename (feeds_actor e),?_⟩
  rw [same]
  exact draws_rename (draws_actor e')

theorem rename_guarded {holder : L → Option T} {e : Event T L A} (guarded : Guarded holder e) :
    Guarded (fun m => (holder m).map name) (e.rename name) := by
  cases e with
  | acquire t m => exact congrArg (Option.map name) guarded
  | release t m => exact congrArg (Option.map name) guarded
  | _ => trivial

variable [DecidableEq L]

theorem rename_holders {holder : L → Option T} (e : Event T L A) :
    holderAfter (fun m => (holder m).map name) (e.rename name) = fun m => (holderAfter holder e m).map name := by
  funext k
  cases e with
  | acquire t m => by_cases same : k = m <;> simp [Event.rename,holderAfter,same]
  | release t m => by_cases same : k = m <;> simp [Event.rename,holderAfter,same]
  | _ => rfl

theorem rename_disciplined {holder : L → Option T} (disciplined : DisciplinedFrom holder tr) :
    DisciplinedFrom (fun m => (holder m).map name) (tr.map (Event.rename name)) := by
  induction tr generalizing holder with
  | nil => trivial
  | cons e rest ih =>
    refine ⟨rename_guarded disciplined.1,?_⟩
    rw [rename_holders]
    exact ih disciplined.2

end Renaming

section Lifetimes
variable {I L A : Type*}

-- The thread (x,n) is the one that is given the id x after n earlier ones, each of
-- them joined by then.
def World.Vacant (w : World (I × ℕ) L) : Event (I × ℕ) L A → Prop
  | .fork _ (x,n+1) => w.status (x,n) = .joined
  | _ => True

instance World.decidableVacant (w : World (I × ℕ) L) : (e : Event (I × ℕ) L A) → Decidable (w.Vacant e)
  | .fork _ (x,n+1) => inferInstanceAs (Decidable (w.status (x,n) = .joined))
  | .fork _ (_,0) | .join .. | .acquire .. | .release .. | .access .. | .skip _ => isTrue trivial

variable [DecidableEq I] [DecidableEq L]

def RecycledFrom (w : World (I × ℕ) L) : List (Event (I × ℕ) L A) → Prop
  | [] => True
  | e :: rest => w.Allows e ∧ w.Vacant e ∧ RecycledFrom (w.after e) rest

def Recycled (main : I) (tr : List (Event (I × ℕ) L A)) : Prop := RecycledFrom (World.start (main,0)) tr

instance decidableRecycledFrom (w : World (I × ℕ) L) : (tr : List (Event (I × ℕ) L A)) → Decidable (RecycledFrom w tr)
  | [] => isTrue trivial
  | e :: rest => @instDecidableAnd _ _ (w.decidableAllows e)
      (@instDecidableAnd _ _ (w.decidableVacant e) (decidableRecycledFrom (w.after e) rest))

instance decidableRecycled (main : I) (tr : List (Event (I × ℕ) L A)) : Decidable (Recycled main tr) :=
  decidableRecycledFrom _ tr

theorem recycledFrom_legal {w : World (I × ℕ) L} {tr : List (Event (I × ℕ) L A)} (recycled : RecycledFrom w tr) : LegalFrom w tr := by
  induction tr generalizing w with
  | nil => trivial
  | cons e rest ih => exact ⟨recycled.1,ih recycled.2.2⟩

theorem recycled_legal {main : I} {tr : List (Event (I × ℕ) L A)} (recycled : Recycled main tr) : Legal (main,0) tr :=
  recycledFrom_legal recycled

theorem recycled_disciplined {main : I} {tr : List (Event (I × ℕ) L A)} (recycled : Recycled main tr) :
    Disciplined (tr.map (Event.rename Prod.fst)) :=
  rename_disciplined (legal_disciplined (recycled_legal recycled))

end Lifetimes
end ThreadEvents

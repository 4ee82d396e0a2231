import Bayes.Engine
/-!
Nothing but a propagation is ever cancelled. Whatever else a call looks up, checks or computes may be
refused, but not as cancelled.
-/
namespace Bayes

/-! Errors other than a given one -/

section Errors

variable {β γ ε : Type} {e : ε}

theorem ok_ne_error (b : β) : (.ok b : Except ε β) ≠ .error e := nofun

theorem error_ne_of_eq {x : Except ε β} {e' : ε} (h : x = .error e') (hx : x ≠ .error e) :
    (.error e' : Except ε γ) ≠ .error e :=
  fun he => hx (h.trans (congrArg Except.error (Except.error.inj he)))

theorem bind_ne_error {x : Except ε β} {f : β → Except ε γ} (hx : x ≠ .error e)
    (hf : ∀ b, f b ≠ .error e) : (x >>= f) ≠ .error e := by
  cases x with
  | error e' => exact error_ne_of_eq rfl hx
  | ok b => exact hf b

theorem map_ne_error {x : Except ε β} {f : β → γ} (hx : x ≠ .error e) : x.map f ≠ .error e := by
  cases x with
  | error e' => exact error_ne_of_eq rfl hx
  | ok b => exact ok_ne_error (f b)

theorem forM_ne_error {f : β → Except ε Unit} (hf : ∀ b, f b ≠ .error e) (l : List β) :
    l.forM f ≠ .error e := by
  induction l with
  | nil => exact ok_ne_error ()
  | cons b l ih => exact bind_ne_error (hf b) fun _ => ih

theorem mapM_ne_error {f : β → Except ε γ} (hf : ∀ b, f b ≠ .error e) (l : List β) :
    l.mapM f ≠ .error e := by
  induction l with
  | nil => exact ok_ne_error []
  | cons b l ih =>
    rw [List.mapM_cons]
    exact bind_ne_error (hf b) fun _ => bind_ne_error ih fun _ => ok_ne_error _

end Errors

variable {α : Type}

/-! The parts of a call -/

namespace Network

variable {n : Network α} {v : Nat}

theorem lookup_ne_cancelled : n.lookup v ≠ .error .cancelled := by
  rw [lookup]
  split <;> simp [Error.unknownId]

theorem lookupName_ne_cancelled {name : String} : n.lookupName name ≠ .error .cancelled := by
  rw [lookupName]
  split <;> simp [Error.unknownName]

theorem lookupState_ne_cancelled {state : Nat} : n.lookupState v state ≠ .error .cancelled := by
  rw [lookupState]
  split
  · next e he => exact error_ne_of_eq he lookup_ne_cancelled
  · split <;> simp

theorem setValues_ne_cancelled [Scalar α] {values : List α} :
    n.setValues v values ≠ .error .cancelled := by
  have hfault (owner : String) (shape : List Nat) (t : Table α) :
      fault? owner shape t ≠ some .cancelled := by
    rw [fault?]
    split
    · simp
    · split <;> simp
  have hcheck (t : Table α) : n.checkTable v t ≠ .error .cancelled := by
    rw [checkTable]
    split
    · next e he => exact error_ne_of_eq he lookup_ne_cancelled
    · split
      · next e he => exact fun h => hfault _ _ _ (he.trans (congrArg _ (Except.error.inj h)))
      · exact ok_ne_error ()
  rw [setValues]
  split
  · next e he => exact error_ne_of_eq he lookup_ne_cancelled
  · split
    · simp
    · exact map_ne_error (hcheck _)

end Network

namespace Evidence

variable {e : Evidence}

theorem checkMutable_ne_cancelled : e.checkMutable (α := α) ≠ .error .cancelled := by
  rw [checkMutable]
  split <;> simp

theorem checkVariable_ne_cancelled {v : Nat} : e.checkVariable (α := α) v ≠ .error .cancelled := by
  rw [checkVariable]
  split <;> simp [Error.unknownId]

theorem checkState_ne_cancelled {v state : Nat} :
    e.checkState (α := α) v state ≠ .error .cancelled := by
  refine bind_ne_error checkVariable_ne_cancelled fun x => ?_
  split
  · exact ok_ne_error ()
  · simp [throw, throwThe, MonadExceptOf.throw]

theorem checkAll_ne_cancelled {states : VarMap Nat} :
    e.checkAll (α := α) states ≠ .error .cancelled :=
  forM_ne_error (fun _ => checkState_ne_cancelled) _

theorem record_ne_cancelled {kind : Kind} {v state : Nat} :
    e.record (α := α) kind v state ≠ .error .cancelled :=
  bind_ne_error checkMutable_ne_cancelled fun _ =>
    bind_ne_error checkState_ne_cancelled fun _ => ok_ne_error _

theorem update_ne_cancelled {u : Update} : e.update (α := α) u ≠ .error .cancelled := by
  cases u with
  | record kind v state => exact record_ne_cancelled
  | recordNamed kind name state =>
    refine bind_ne_error ?_ fun _ => record_ne_cancelled
    rw [resolve]
    split
    · simp [Error.unknownName]
    · split <;> simp
  | forget v =>
    exact bind_ne_error checkMutable_ne_cancelled fun _ =>
      bind_ne_error checkVariable_ne_cancelled fun _ => ok_ne_error _
  | addAll kind states =>
    exact bind_ne_error checkMutable_ne_cancelled fun _ =>
      bind_ne_error checkAll_ne_cancelled fun _ => ok_ne_error _
  | replaceAll kind states =>
    exact bind_ne_error checkMutable_ne_cancelled fun _ =>
      bind_ne_error checkAll_ne_cancelled fun _ => ok_ne_error _
  | replaceEverything observations interventions =>
    refine bind_ne_error checkMutable_ne_cancelled fun _ =>
      bind_ne_error checkAll_ne_cancelled fun _ =>
        bind_ne_error checkAll_ne_cancelled fun _ => ?_
    split
    · simp [throw, throwThe, MonadExceptOf.throw]
    · exact ok_ne_error _
  | reset => exact bind_ne_error checkMutable_ne_cancelled fun _ => ok_ne_error _

end Evidence

variable [Scalar α]

theorem Snapshot.marginal_ne_cancelled {s : Snapshot α} {v : Nat} :
    s.marginal v ≠ .error .cancelled := by
  have hnormalize (q : Potential α) : q.normalize ≠ .error .cancelled := by
    rw [Potential.normalize]
    split <;> simp
  rw [marginal]
  split
  · simp [Error.unknownId]
  · split
    · simp
    · split
      · simp [Error.unknownId]
      · exact bind_ne_error (hnormalize _) fun _ => ok_ne_error _

theorem Snapshot.marginals_ne_cancelled {s : Snapshot α} : s.marginals ≠ .error .cancelled :=
  mapM_ne_error (fun _ => marginal_ne_cancelled) _

theorem Sensitivity.ofEntry_ne_cancelled {n : Network α} {s : Snapshot α}
    {query : Option ((Nat × Nat) × Option (Snapshot α))} {entry : TableEntry} :
    ofEntry n s query entry ≠ .error .cancelled := by
  have hrow : row n entry ≠ .error .cancelled := by
    rw [row]
    split
    · next e he => exact error_ne_of_eq he Network.lookupState_ne_cancelled
    · split
      · simp
      · exact map_ne_error (forM_ne_error (fun _ => map_ne_error Network.lookupState_ne_cancelled) _)
  rw [ofEntry]
  split
  · next e he => exact error_ne_of_eq he hrow
  · split <;> simp

end Bayes

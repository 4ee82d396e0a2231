import Bayes.Error
/-!
Calls that work on a state in place. What a call has written stays written, also when it fails after
that; a call that checks everything before it writes anything is a whole, which leaves a new state or
the old one.
-/
namespace Bayes

/-- The state after a call is the one it has reached, whether it succeeds or fails. -/
abbrev Call (α σ β : Type) := EStateM (Error α) σ β

namespace Call

variable {α σ β γ : Type}

def check (f : σ → Except (Error α) β) : Call α σ β := fun s =>
  match f s with
  | .ok b => .ok b s
  | .error e => .error e s

def read (f : σ → β) : Call α σ β := fun s => .ok (f s) s

def write (f : σ → β × σ) : Call α σ β := fun s => .ok (f s).1 (f s).2

def whole (f : σ → Except (Error α) (β × σ)) : Call α σ β := fun s =>
  match f s with
  | .ok (b, s') => .ok b s'
  | .error e => .error e s

def after (c : Call α σ β) (s : σ) : σ :=
  match c s with
  | .ok _ s' => s'
  | .error _ s' => s'

theorem write_eq_whole (f : σ → β × σ) : (write f : Call α σ β) = whole fun s => .ok (f s) := rfl

theorem pure_eq_write (b : β) : (pure b : Call α σ β) = write fun s => (b, s) := rfl

theorem write_bind (f : σ → β × σ) (g : β → σ → γ × σ) :
    (write f >>= fun b => write (g b) : Call α σ γ) = write fun s => g (f s).1 (f s).2 := rfl

theorem read_bind (f : σ → β) (g : β → σ → Except (Error α) (γ × σ)) :
    (read f >>= fun b => whole (g b)) = whole fun s => g (f s) s := rfl

theorem check_bind (f : σ → Except (Error α) β) (g : β → σ → Except (Error α) (γ × σ)) :
    (check f >>= fun b => whole (g b)) = whole fun s => f s >>= fun b => g b s := by
  funext s
  cases h : f s <;> simp [bind, EStateM.bind, check, whole, Except.bind, h]

end Call
end Bayes

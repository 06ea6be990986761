/-!
# Walks over trees

A walk rebuilds a tree part by part and may stop at a fault.  Where it stops, the parts it has
passed keep what it did to them, and the parts it has not reached stay as they were.
-/

namespace PLZero

/-- How a walk ended: the tree as it is now, the state it built up, and what stopped it. -/
structure Walk (φ σ α : Type) where
  tree : α
  state : σ
  fault : Option φ

namespace Walk

variable {φ σ α β γ : Type}

def done (tree : α) (state : σ) : Walk φ σ α := ⟨tree, state, none⟩

def stop (tree : α) (state : σ) (fault : φ) : Walk φ σ α := ⟨tree, state, some fault⟩

def map (f : α → β) (w : Walk φ σ α) : Walk φ σ β := ⟨f w.tree, w.state, w.fault⟩

/-- The same walk with another state. -/
def withState {τ : Type} (w : Walk φ σ α) (state : τ) : Walk φ τ α := ⟨w.tree, state, w.fault⟩

/-- Goes on over the same tree, unless the walk has stopped. -/
def onward (w : Walk φ σ α) (next : α → σ → Walk φ σ α) : Walk φ σ α :=
  match w.fault with
  | some _ => w
  | none => next w.tree w.state

/-- Goes on to the part `rest`, which stays as it is if the walk has stopped, and joins the two. -/
def andThen (w : Walk φ σ α) (rest : β) (next : σ → Walk φ σ β) (join : α → β → γ) : Walk φ σ γ :=
  match w.fault with
  | some fault => ⟨join w.tree rest, w.state, some fault⟩
  | none => (next w.state).map (join w.tree)

end Walk

end PLZero

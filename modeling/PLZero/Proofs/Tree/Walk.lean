import PLZero.Tree.Walk

/-!
# How walks are put together

Small lemmas about walks that are done, and about the parts of a walk that has not stopped.

* `Walk.Meets` — what holds of the tree, the state and the fault that a walk ends with.
* `Walk.Agree` — what holds of the ends of two walks.
-/

namespace PLZero.Walk

variable {φ σ α β γ : Type} {a : α} {s : σ}

@[simp] theorem done_tree : (Walk.done a s : Walk φ σ α).tree = a := rfl

@[simp] theorem done_state : (Walk.done a s : Walk φ σ α).state = s := rfl

@[simp] theorem onward_done {next : α → σ → Walk φ σ α} :
    (Walk.done a s : Walk φ σ α).onward next = next a s := rfl

@[simp] theorem andThen_done {b : β} {next : σ → Walk φ σ β} {join : α → β → γ} :
    (Walk.done a s : Walk φ σ α).andThen b next join = (next s).map (join a) := rfl

@[simp] theorem map_done {f : α → β} : (Walk.done a s : Walk φ σ α).map f = .done (f a) s := rfl

@[simp] theorem fault_map {w : Walk φ σ α} {f : α → β} : (w.map f).fault = w.fault := rfl

theorem fault_andThen {w : Walk φ σ α} {b : β} {next : σ → Walk φ σ β} {join : α → β → γ} :
    (w.andThen b next join).fault = none ↔ w.fault = none ∧ (next w.state).fault = none := by
  unfold Walk.andThen
  split
  · rename_i fault h
    simp [h]
  · rename_i h
    simp [h, Walk.map]

theorem fault_onward {w : Walk φ σ α} {next : α → σ → Walk φ σ α} :
    (w.onward next).fault = none ↔ w.fault = none ∧ (next w.tree w.state).fault = none := by
  unfold Walk.onward
  split
  · rename_i fault h
    simp [h]
  · rename_i h
    simp [h]

/-- What holds of the parts of a walk, and of a part it has not reached, holds of its tree. -/
theorem tree_andThen {P : α → Prop} {Q : β → Prop} {R : γ → Prop} {w : Walk φ σ α} {b : β}
    {next : σ → Walk φ σ β} {join : α → β → γ} (hw : P w.tree) (hb : Q b)
    (hnext : ∀ s, Q (next s).tree) (hjoin : ∀ a b, P a → Q b → R (join a b)) :
    R (w.andThen b next join).tree := by
  unfold Walk.andThen
  split
  · exact hjoin _ _ hw hb
  · exact hjoin _ _ hw (hnext _)

theorem tree_andThen_eq {w : Walk φ σ α} {b : β} {next : σ → Walk φ σ β} {join : α → β → γ}
    (h : w.fault = none) : (w.andThen b next join).tree = join w.tree (next w.state).tree := by
  simp [Walk.andThen, h, Walk.map]

/-! ## What walks end with -/

/-- The tree has `P` and the state `S`, and if the walk has stopped, the fault has `F`. -/
structure Meets (w : Walk φ σ α) (P : α → Prop) (S : σ → Prop) (F : φ → Prop) : Prop where
  tree : P w.tree
  state : S w.state
  fault : ∀ f, w.fault = some f → F f

namespace Meets

variable {P : α → Prop} {Q : β → Prop} {R : γ → Prop} {S : σ → Prop} {F : φ → Prop}
  {w : Walk φ σ α}

theorem done (ha : P a) (hs : S s) : (Walk.done a s).Meets P S F :=
  ⟨ha, hs, by simp [Walk.done]⟩

theorem stop {f : φ} (ha : P a) (hs : S s) (hf : F f) : (Walk.stop a s f).Meets P S F :=
  ⟨ha, hs, by simp [Walk.stop, hf]⟩

theorem map {f : α → β} (hw : w.Meets P S F) (hf : ∀ a, P a → Q (f a)) :
    (w.map f).Meets Q S F :=
  ⟨hf _ hw.tree, hw.state, hw.fault⟩

theorem onward {next : α → σ → Walk φ σ α} (hw : w.Meets P S F)
    (hnext : ∀ a s, P a → S s → (next a s).Meets P S F) : (w.onward next).Meets P S F := by
  unfold Walk.onward
  split
  · exact hw
  · exact hnext _ _ hw.tree hw.state

theorem andThen {b : β} {next : σ → Walk φ σ β} {join : α → β → γ} (hw : w.Meets P S F) (hb : Q b)
    (hnext : ∀ s, S s → (next s).Meets Q S F) (hjoin : ∀ a b, P a → Q b → R (join a b)) :
    (w.andThen b next join).Meets R S F := by
  unfold Walk.andThen
  split
  · rename_i fault hf
    exact ⟨hjoin _ _ hw.tree hb, hw.state, by simpa [hf] using hw.fault⟩
  · exact (hnext _ hw.state).map fun b hb => hjoin _ _ hw.tree hb

end Meets

/-! ## Two walks -/

/-- Both walks come to their end, with trees related by `R` and states by `S`, or both stop, with
faults related by `F`. -/
inductive Agree (F : φ → φ → Prop) (S : σ → σ → Prop) (R : α → α → Prop) :
    Walk φ σ α → Walk φ σ α → Prop where
  | done {a a' : α} {s s' : σ} : R a a' → S s s' → Agree F S R (.done a s) (.done a' s')
  | stop {a a' : α} {s s' : σ} {f f' : φ} : F f f' → Agree F S R (.stop a s f) (.stop a' s' f')

namespace Agree

variable {F : φ → φ → Prop} {S : σ → σ → Prop} {R : α → α → Prop} {Q : β → β → Prop}
  {P : γ → γ → Prop} {w w' : Walk φ σ α}

theorem map {f f' : α → β} (h : Agree F S R w w') (hf : ∀ a a', R a a' → Q (f a) (f' a')) :
    Agree F S Q (w.map f) (w'.map f') := by
  cases h with
  | done ha hs => exact .done (hf _ _ ha) hs
  | stop hfault => exact .stop hfault

theorem onward {next next' : α → σ → Walk φ σ α} (h : Agree F S R w w')
    (hnext : ∀ a a' s s', R a a' → S s s' → Agree F S R (next a s) (next' a' s')) :
    Agree F S R (w.onward next) (w'.onward next') := by
  cases h with
  | done ha hs => exact hnext _ _ _ _ ha hs
  | stop hfault => exact .stop hfault

theorem andThen {b b' : β} {next next' : σ → Walk φ σ β} {join join' : α → β → γ}
    (h : Agree F S R w w') (hnext : ∀ s s', S s s' → Agree F S Q (next s) (next' s'))
    (hjoin : ∀ a a' b b', R a a' → Q b b' → P (join a b) (join' a' b')) :
    Agree F S P (w.andThen b next join) (w'.andThen b' next' join') := by
  cases h with
  | done ha hs => exact (hnext _ _ hs).map fun b b' hb => hjoin _ _ b b' ha hb
  | stop hfault => exact .stop hfault

end Agree

end PLZero.Walk

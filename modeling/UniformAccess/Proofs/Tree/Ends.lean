import UniformAccess.Tree.Edit
/-!
# Runs that end well

`Ends e s Q` says that a run of changes does not stop short, and what is true of its answer and of the state it leaves.
A longer run ends well if its parts do, one after the other. `EndsUnless E e s Q` lets a run stop short for one reason
only. `Keeps P e` says what a run leaves true, whether it ends well or stops short. `Passes E I e` says of an edit what
it leaves true if it ends, and how it may fail if it does not.
-/
namespace UniformAccess

/-! ## The rules -/

section

variable {ε ε' σ α β : Type} {s : σ} {P Q : α → σ → Prop}

/-- **A run ends, and its answer and the state it leaves satisfy `Q`.** -/
def Ends (e : EStateM ε σ α) (s : σ) (Q : α → σ → Prop) : Prop := ∃ a s', e s = .ok a s' ∧ Q a s'

namespace Ends

theorem pure {a : α} (h : Q a s) : Ends (Pure.pure a : EStateM ε σ α) s Q := ⟨a, s, rfl, h⟩

theorem bind {x : EStateM ε σ α} {f : α → EStateM ε σ β} {R : β → σ → Prop} (hx : Ends x s P)
    (hf : ∀ a s', P a s' → Ends (f a) s' R) : Ends (x >>= f) s R := by
  obtain ⟨a, s', hxs, hP⟩ := hx
  obtain ⟨b, s'', hfs, hR⟩ := hf a s' hP
  refine ⟨b, s'', ?_, hR⟩
  show EStateM.bind x f s = _
  unfold EStateM.bind
  rw [hxs]
  exact hfs

theorem bind_pure {a : α} {f : α → EStateM ε σ β} {R : β → σ → Prop} (h : Ends (f a) s R) :
    Ends (Pure.pure a >>= f) s R := h

theorem bind_get {f : σ → EStateM ε σ α} (h : Ends (f s) s Q) : Ends (get >>= f) s Q := h

theorem bind_set {s' : σ} {f : PUnit → EStateM ε σ α} (h : Ends (f ⟨⟩) s' Q) : Ends (set s' >>= f) s Q := h

theorem bind_modify {g : σ → σ} {f : PUnit → EStateM ε σ α} (h : Ends (f ⟨⟩) (g s) Q) :
    Ends (modify g >>= f) s Q := h

theorem mapM {f : α → EStateM ε σ β} {I : σ → Prop} : ∀ {as : List α} {s : σ},
    (∀ a ∈ as, ∀ s, I s → Ends (f a) s (fun _ => I)) → I s → Ends (as.mapM f) s (fun _ => I)
  | [], _, _, h => .pure h
  | a :: as, _, hf, h => by
    rw [List.mapM_cons]
    exact .bind (hf a List.mem_cons_self _ h) fun _ _ h₁ =>
      .bind (mapM (fun b hb => hf b (List.mem_cons_of_mem _ hb)) h₁) fun _ _ h₂ => .pure h₂

theorem mono {e : EStateM ε σ α} (h : Ends e s P) (hPQ : ∀ a s', P a s' → Q a s') : Ends e s Q := by
  obtain ⟨a, s', hes, hP⟩ := h
  exact ⟨a, s', hes, hPQ a s' hP⟩

/-- What is true of a run that ends is true of how it ended. -/
theorem of_eq {e : EStateM ε σ α} {a : α} {s' : σ} (h : Ends e s Q) (hes : e s = .ok a s') : Q a s' := by
  obtain ⟨b, s'', hes', hQ⟩ := h
  rw [hes] at hes'
  cases hes'
  exact hQ

theorem and {e : EStateM ε σ α} (h : Ends e s P) (h' : Ends e s Q) : Ends e s (fun a s' => P a s' ∧ Q a s') := by
  obtain ⟨a, s', hes, hP⟩ := h
  exact ⟨a, s', hes, hP, h'.of_eq hes⟩

theorem adaptExcept {f : ε → ε'} {e : EStateM ε σ α} (h : Ends e s Q) : Ends (EStateM.adaptExcept f e) s Q := by
  obtain ⟨a, s', hes, hQ⟩ := h
  refine ⟨a, s', ?_, hQ⟩
  unfold EStateM.adaptExcept
  rw [hes]

end Ends

end

/-! ## Runs in steps -/

section

variable {ε σ α β : Type} {s s' s'' : σ} {x : EStateM ε σ α} {f : α → EStateM ε σ β} {a : α} {b : β}

theorem bind_of_ok (hx : x s = .ok a s') : (x >>= f) s = f a s' := by
  show EStateM.bind x f s = _
  unfold EStateM.bind
  rw [hx]

theorem bind_of_error {e : ε} (hx : x s = .error e s') : (x >>= f) s = .error e s' := by
  show EStateM.bind x f s = _
  unfold EStateM.bind
  rw [hx]

/-- **A run of two parts ends if the first does, and the second after it.** -/
theorem bind_eq_ok : (x >>= f) s = .ok b s'' ↔ ∃ a s', x s = .ok a s' ∧ f a s' = .ok b s'' := by
  cases hx : x s with
  | ok a s' =>
    rw [bind_of_ok hx]
    exact ⟨fun h => ⟨a, s', rfl, h⟩, fun ⟨_, _, heq, h⟩ => by cases heq; exact h⟩
  | error e s' =>
    rw [bind_of_error hx]
    simp

theorem bind_eq_error {e : ε} :
    (x >>= f) s = .error e s'' ↔ x s = .error e s'' ∨ ∃ a s', x s = .ok a s' ∧ f a s' = .error e s'' := by
  cases hx : x s with
  | ok a s' =>
    rw [bind_of_ok hx]
    exact ⟨fun h => .inr ⟨a, s', rfl, h⟩, fun h => by
      rcases h with h | ⟨_, _, heq, h⟩
      · cases h
      · cases heq
        exact h⟩
  | error e s' =>
    rw [bind_of_error hx]
    simp

end

/-! ## Runs that may stop short -/

section

variable {ε σ α β : Type} {E E' : Prop} {s : σ} {P Q : α → σ → Prop}

/-- **A run ends as `Q` says, unless it stops short because of `E`.** -/
def EndsUnless (E : Prop) (e : EStateM ε σ α) (s : σ) (Q : α → σ → Prop) : Prop :=
  match e s with
  | .ok a s' => Q a s'
  | .error _ _ => E

namespace EndsUnless

theorem pure {a : α} (h : Q a s) : EndsUnless E (Pure.pure a : EStateM ε σ α) s Q := h

theorem throw {x : ε} (h : E) : EndsUnless E (throw x : EStateM ε σ α) s Q := h

theorem bind {x : EStateM ε σ α} {f : α → EStateM ε σ β} {R : β → σ → Prop} (hx : EndsUnless E x s P)
    (hf : ∀ a s', P a s' → EndsUnless E (f a) s' R) : EndsUnless E (x >>= f) s R := by
  unfold EndsUnless at hx ⊢
  cases hxs : x s with
  | ok a s' =>
    rw [hxs] at hx
    rw [bind_of_ok hxs]
    exact hf a s' hx
  | error e s' =>
    rw [hxs] at hx
    rw [bind_of_error hxs]
    exact hx

theorem bind_get {f : σ → EStateM ε σ α} (h : EndsUnless E (f s) s Q) : EndsUnless E (get >>= f) s Q := h

theorem imp {e : EStateM ε σ α} (h : EndsUnless E e s Q) (hE : E → E') : EndsUnless E' e s Q := by
  unfold EndsUnless at h ⊢
  cases hes : e s with
  | ok a s' => rwa [hes] at h
  | error x s' =>
    rw [hes] at h
    exact hE h

theorem of_ok {e : EStateM ε σ α} {a : α} {s' : σ} (h : EndsUnless E e s Q) (hes : e s = .ok a s') : Q a s' := by
  unfold EndsUnless at h
  rwa [hes] at h

theorem ends {e : EStateM ε σ α} (h : EndsUnless E e s Q) (hE : ¬ E) : Ends e s Q := by
  unfold EndsUnless at h
  cases hes : e s with
  | ok a s' =>
    rw [hes] at h
    exact ⟨a, s', hes, h⟩
  | error x s' =>
    rw [hes] at h
    exact absurd h hE

end EndsUnless

end

/-! ## What a run leaves true -/

section

variable {ε σ α β : Type} {P : σ → Prop}

/-- The state after a run, however it ended. -/
def stateOf : EStateM.Result ε σ α → σ
  | .ok _ s => s
  | .error _ s => s

/-- **A run keeps `P` true**, whether it ends or stops short. -/
def Keeps (P : σ → Prop) (e : EStateM ε σ α) : Prop := ∀ s, P s → P (stateOf (e s))

namespace Keeps

theorem pure (a : α) : Keeps P (Pure.pure a : EStateM ε σ α) := fun _ h => h

theorem bind {x : EStateM ε σ α} {f : α → EStateM ε σ β} (hx : Keeps P x) (hf : ∀ a, Keeps P (f a)) :
    Keeps P (x >>= f) := by
  intro s h
  have hs := hx s h
  cases hxs : x s with
  | ok a s' =>
    rw [hxs] at hs
    rw [bind_of_ok hxs]
    exact hf a s' hs
  | error e s' =>
    rw [hxs] at hs
    rw [bind_of_error hxs]
    exact hs

theorem bind_get {f : σ → EStateM ε σ α} (hf : ∀ s, Keeps P (f s)) : Keeps P (get >>= f) := fun s => hf s s

theorem throw (e : ε) : Keeps P (throw e : EStateM ε σ α) := fun _ h => h

theorem mapM {f : α → EStateM ε σ β} (hf : ∀ a, Keeps P (f a)) : ∀ as : List α, Keeps P (as.mapM f)
  | [] => .pure _
  | a :: as => by
    rw [List.mapM_cons]
    exact .bind (hf a) fun _ => .bind (mapM hf as) fun _ => .pure _

end Keeps

end

/-! ## Edits -/

namespace Tree

variable {ε : Type} {t : Tree} {id : NodeId}

theorem ends_alloc {loc : Loc} {k : Kind} {R : NodeId → Tree → Prop} (h : R t.fresh (t.add loc k)) :
    Ends (alloc loc k : EStateM ε Tree NodeId) t R := ⟨t.fresh, t.add loc k, rfl, h⟩

theorem ends_bind_node {α : Type} {node : Node} {f : Node → Edit ε α} {R : α → Tree → Prop}
    (hid : t.get? id = some node) (h : Ends (f node) t R) : Ends (Edit.node id >>= f) t R := by
  refine .bind (P := fun n t' => n = node ∧ t' = t) ⟨node, t, ?_, rfl, rfl⟩ ?_
  · unfold Edit.node
    rw [hid]
  · rintro _ _ ⟨rfl, rfl⟩
    exact h

end Tree

/-! ## Edits that may fail -/

section

variable {ε α β : Type} {E : ε → Prop} {I : Tree → Prop} {t : Tree}

/-- **How an edit may come out**: it ends as `Q` says, or it fails with an error in `E`, or it finds a node missing. -/
def Settles (E : ε → Prop) (Q : α → Tree → Prop) : EStateM.Result (Stop ε) Tree α → Prop
  | .ok a t => Q a t
  | .error (.failed e) _ => E e
  | .error (.absent _) _ => True

namespace Settles

variable {P : α → Tree → Prop}

theorem bind {Q : β → Tree → Prop} {x : Edit ε α} {f : α → Edit ε β} (hx : Settles E P (x t))
    (hf : ∀ a t', P a t' → Settles E Q (f a t')) : Settles E Q ((x >>= f) t) := by
  cases hxt : x t with
  | ok a t' =>
    rw [hxt] at hx
    rw [bind_of_ok hxt]
    exact hf a t' hx
  | error e t' =>
    rw [hxt] at hx
    rw [bind_of_error hxt]
    cases e with
    | failed e => exact hx
    | absent id => trivial

theorem bind_get {Q : α → Tree → Prop} {f : Tree → Edit ε α} (h : Settles E Q (f t t)) :
    Settles E Q ((get >>= f) t) := h

theorem bind_modify {Q : α → Tree → Prop} {g : Tree → Tree} {f : PUnit → Edit ε α} (h : Settles E Q (f ⟨⟩ (g t))) :
    Settles E Q ((modify g >>= f) t) := h

/-- An edit that needs a node goes on if it is there. -/
theorem bind_node {Q : α → Tree → Prop} {id : NodeId} {f : Node → Edit ε α}
    (hf : ∀ node, t.get? id = some node → Settles E Q (f node t)) : Settles E Q ((Edit.node id >>= f) t) := by
  refine bind (P := fun node t' => t.get? id = some node ∧ t' = t) ?_ ?_
  · unfold Edit.node
    cases hid : t.get? id with
    | none => trivial
    | some node => exact ⟨rfl, rfl⟩
  · rintro node _ ⟨hnode, rfl⟩
    exact hf node hnode

end Settles

/-- **An edit keeps `I` true if it ends, and fails only with errors in `E`.** -/
def Passes (E : ε → Prop) (I : Tree → Prop) (e : Edit ε α) : Prop := ∀ t, I t → Settles E (fun _ => I) (e t)

namespace Passes

theorem pure (a : α) : Passes E I (Pure.pure a : Edit ε α) := fun _ h => h

theorem bind {x : Edit ε α} {f : α → Edit ε β} (hx : Passes E I x) (hf : ∀ a, Passes E I (f a)) :
    Passes E I (x >>= f) :=
  fun t h => (hx t h).bind fun a t' h' => hf a t' h'

theorem bind_get {f : Tree → Edit ε α} (hf : ∀ t, Passes E I (f t)) : Passes E I (get >>= f) := fun t => hf t t

theorem modify {g : Tree → Tree} (hg : ∀ t, I t → I (g t)) : Passes E I (modify g : Edit ε PUnit) := hg

theorem fail {e : ε} (h : E e) : Passes E I (Edit.fail e : Edit ε α) := fun _ _ => h

theorem node (id : NodeId) : Passes E I (Edit.node id : Edit ε Node) := by
  intro t h
  unfold Edit.node
  split
  · exact h
  · trivial

theorem mapM {f : α → Edit ε β} : ∀ {as : List α}, (∀ a ∈ as, Passes E I (f a)) → Passes E I (as.mapM f)
  | [], _ => .pure _
  | a :: as, hf => by
    rw [List.mapM_cons]
    exact .bind (hf a List.mem_cons_self) fun _ => .bind (mapM fun b hb => hf b (List.mem_cons_of_mem _ hb))
      fun _ => .pure _

/-- What an edit keeps true is true of the tree in which it ended. -/
theorem of_eq {e : Edit ε α} {t' : Tree} {a : α} (he : Passes E I e) (het : e t = .ok a t') (h : I t) : I t' := by
  have := he t h
  rwa [het] at this

theorem of_failed {e : Edit ε α} {t' : Tree} {x : ε} (he : Passes E I e) (het : e t = .error (.failed x) t') (h : I t) :
    E x := by
  have := he t h
  rwa [het] at this

end Passes

end

end UniformAccess

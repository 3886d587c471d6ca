import Bundler.Host.State

/-!
# What holds after a step

`wp a Q E s` says that the step `a` from the state `s` either ends with a value and a state in `Q` or fails with
a failure and a state in `E`. There is one rule for each way in which steps are put together, each an equation,
and `wp_mono` puts the property that is known of a step in place of the step.
-/

namespace Bundler

variable {α β ε τ : Type}

theorem run_bind (a : ExceptT ε (StateM τ) β) (f : β → ExceptT ε (StateM τ) α) (s : τ) :
    (a >>= f).run s = (ExceptT.bindCont f (a.run s).1).run (a.run s).2 := rfl

theorem run_bind_of_ok {a : ExceptT ε (StateM τ) β} {f : β → ExceptT ε (StateM τ) α} {s t : τ} {x : β}
    (ha : a.run s = (.ok x, t)) : (a >>= f).run s = (f x).run t := by
  rw [run_bind, ha]
  rfl

theorem run_bind_of_error {a : ExceptT ε (StateM τ) β} {s t : τ} {e : ε} (ha : a.run s = (.error e, t))
    (f : β → ExceptT ε (StateM τ) α) : (a >>= f).run s = (.error e, t) := by
  rw [run_bind, ha]
  rfl

theorem run_get_bind (f : τ → ExceptT ε (StateM τ) α) (s : τ) : (get >>= f).run s = (f s).run s := rfl

theorem run_modify_bind (g : τ → τ) (f : PUnit → ExceptT ε (StateM τ) α) (s : τ) :
    (modify g >>= f).run s = (f ⟨⟩).run (g s) := rfl

/-- What steps do one after the other can be said of all of them at once. -/
class Chained (R : τ → τ → Prop) : Prop where
  refl : ∀ s, R s s
  trans : ∀ {s s' s''}, R s s' → R s' s'' → R s s''

/-- After the step `Q` holds, or `E` if it fails. -/
def wp (a : ExceptT ε (StateM τ) α) (Q : α → τ → Prop) (E : ε → τ → Prop) (s : τ) : Prop :=
  match a.run s with
  | (.ok x, t) => Q x t
  | (.error e, t) => E e t

section Rules

variable {Q R : α → τ → Prop} {E F : ε → τ → Prop} {s : τ}

/-- `wp` speaks of the one outcome that the step has. -/
theorem wp_iff {a : ExceptT ε (StateM τ) α} : wp a Q E s ↔
    (∀ x t, a.run s = (.ok x, t) → Q x t) ∧ (∀ e t, a.run s = (.error e, t) → E e t) := by
  unfold wp
  rcases hr : a.run s with ⟨e | x, t⟩
  · exact ⟨fun h => ⟨fun _ _ h' => (nomatch h'), fun _ _ h' => by cases h'; exact h⟩, fun h => h.2 e t rfl⟩
  · exact ⟨fun h => ⟨fun _ _ h' => by cases h'; exact h, fun _ _ h' => (nomatch h')⟩, fun h => h.1 x t rfl⟩

theorem wp_mono (a : ExceptT ε (StateM τ) α) (h : wp a Q E s) (hQ : ∀ x t, Q x t → R x t)
    (hE : ∀ e t, E e t → F e t) : wp a R F s := by
  unfold wp at *
  split at h
  · exact hQ _ _ h
  · exact hE _ _ h

/-- The outcome that `wp` speaks of, by its name. -/
theorem wp_and_run {a : ExceptT ε (StateM τ) α} (h : wp a Q E s) :
    wp a (fun x t => Q x t ∧ a.run s = (.ok x, t)) (fun e t => E e t ∧ a.run s = (.error e, t)) s :=
  wp_iff.2 ⟨fun x t hr => ⟨(wp_iff.1 h).1 x t hr, hr⟩, fun e t hr => ⟨(wp_iff.1 h).2 e t hr, hr⟩⟩

/-- A step that can't fail has a value. -/
theorem exists_run_of_wp {a : ExceptT ε (StateM τ) α} (h : wp a Q (fun _ _ => False) s) :
    ∃ x t, a.run s = (.ok x, t) ∧ Q x t := by
  unfold wp at h
  split at h
  · next x t hr => exact ⟨x, t, hr, h⟩
  · exact h.elim

/-- A step whose outcome is known. -/
theorem wp_of_run {a : ExceptT ε (StateM τ) α} {x : α} {t : τ} (hr : a.run s = (.ok x, t)) : wp a Q E s = Q x t := by
  unfold wp
  rw [hr]

theorem wp_of_forall (a : ExceptT ε (StateM τ) α) (hQ : ∀ x t, Q x t) (hE : ∀ e t, E e t) : wp a Q E s := by
  unfold wp
  split
  · exact hQ _ _
  · exact hE _ _

theorem wp_pure (x : α) : wp (pure x : ExceptT ε (StateM τ) α) Q E s = Q x s := rfl

theorem wp_bind (a : ExceptT ε (StateM τ) β) (f : β → ExceptT ε (StateM τ) α) :
    wp (a >>= f) Q E s = wp a (fun x t => wp (f x) Q E t) E s := by
  unfold wp
  rw [run_bind]
  rcases a.run s with ⟨_ | _, _⟩ <;> rfl

theorem wp_ofExcept (r : Except ε α) :
    wp (MonadExcept.ofExcept r : ExceptT ε (StateM τ) α) Q E s = match r with
      | .ok x => Q x s
      | .error e => E e s := by
  cases r <;> rfl

theorem wp_ofState (a : StateM τ α) :
    wp (ExceptT.lift a : ExceptT ε (StateM τ) α) Q E s = Q (a s).1 (a s).2 := rfl

theorem wp_ite (c : Prop) [Decidable c] (a b : ExceptT ε (StateM τ) α) :
    wp (if c then a else b) Q E s = if c then wp a Q E s else wp b Q E s := by
  split <;> rfl

end Rules

section State

variable {E : ε → τ → Prop} {s : τ}

theorem wp_get {Q : τ → τ → Prop} : wp (get : ExceptT ε (StateM τ) τ) Q E s = Q s s := rfl

theorem wp_set {Q : PUnit → τ → Prop} (t : τ) : wp (set t : ExceptT ε (StateM τ) PUnit) Q E s = Q ⟨⟩ t := rfl

end State

/-! ### Lists of steps -/

section Lists

variable {I : τ → Prop} {F : ε → Prop} {s : τ}

/-- What holds before and after each step of a list holds after all of them. -/
theorem wp_forM {p : α → ExceptT ε (StateM τ) PUnit}
    (hp : ∀ x t, I t → wp (p x) (fun _ => I) (fun e t' => I t' ∧ F e) t) :
    ∀ (xs : List α) {s : τ}, I s → wp (xs.forM p) (fun _ => I) (fun e t => I t ∧ F e) s
  | [], _, hs => hs
  | x :: xs, s, hs => by
    show wp (p x >>= fun _ => xs.forM p) _ _ s
    rw [wp_bind]
    exact wp_mono _ (hp x s hs) (fun _ t ht => wp_forM hp xs ht) fun _ _ h => h

variable {p : α → ExceptT ε (StateM τ) Bool} {Keeps : α → Bool → Prop}

theorem wp_filterAuxM (hp : ∀ x t, I t → wp (p x) (fun b t' => I t' ∧ Keeps x b) (fun e t' => I t' ∧ F e) t) :
    ∀ (xs acc : List α) {s : τ}, I s → wp (xs.filterAuxM p acc)
      (fun ys t => I t ∧ ∃ zs : List α, ys = zs.reverse ++ acc ∧ zs.Sublist xs ∧ (∀ x ∈ zs, Keeps x true) ∧
        ∀ x ∈ xs, x ∈ zs ∨ Keeps x false)
      (fun e t => I t ∧ F e) s
  | [], acc, s, hs => ⟨hs, [], rfl, List.Sublist.refl _, by simp, by simp⟩
  | x :: xs, acc, s, hs => by
    rw [List.filterAuxM, wp_bind]
    refine wp_mono _ (hp x s hs) (fun b t ⟨ht, hb⟩ => ?_) fun _ _ h => h
    refine wp_mono _ (wp_filterAuxM hp xs _ ht) ?_ fun _ _ h => h
    rintro ys t' ⟨ht', zs, rfl, hsub, hin, hout⟩
    cases b with
    | true =>
      refine ⟨ht', x :: zs, by simp, hsub.cons_cons x, ?_, ?_⟩
      · rintro y (_ | ⟨_, hy⟩)
        · exact hb
        · exact hin y hy
      · rintro y (_ | ⟨_, hy⟩)
        · exact .inl (List.mem_cons_self ..)
        · exact (hout y hy).imp_left (List.mem_cons_of_mem x)
    | false =>
      refine ⟨ht', zs, rfl, hsub.cons x, hin, ?_⟩
      rintro y (_ | ⟨_, hy⟩)
      · exact .inr hb
      · exact hout y hy

/-- What a list keeps is in its order, and of what it drops it's known that it's dropped. -/
theorem wp_filterM (hp : ∀ x t, I t → wp (p x) (fun b t' => I t' ∧ Keeps x b) (fun e t' => I t' ∧ F e) t)
    (xs : List α) (hs : I s) : wp (xs.filterM p)
      (fun ys t => I t ∧ ys.Sublist xs ∧ (∀ x ∈ ys, Keeps x true) ∧ ∀ x ∈ xs, x ∈ ys ∨ Keeps x false)
      (fun e t => I t ∧ F e) s := by
  rw [List.filterM, wp_bind]
  refine wp_mono _ (wp_filterAuxM hp xs [] hs) ?_ fun _ _ h => h
  rintro _ t ⟨ht, zs, rfl, hsub, hin, hout⟩
  rw [wp_pure, List.append_nil, List.reverse_reverse]
  exact ⟨ht, hsub, hin, hout⟩

/-- Where the state stays and nothing is kept, the list is empty. -/
theorem wp_filterM_none {p : α → ExceptT ε (StateM τ) Bool} {xs : List α} {s : τ}
    (hp : ∀ x ∈ xs, wp (p x) (fun b t => t = s ∧ b = false) (fun _ _ => False) s) :
    wp (xs.filterM p) (fun ys t => t = s ∧ ys = []) (fun _ _ => False) s := by
  have haux : ∀ acc, wp (xs.filterAuxM p acc) (fun ys t => t = s ∧ ys = acc) (fun _ _ => False) s := by
    induction xs with
    | nil => exact fun acc => ⟨rfl, rfl⟩
    | cons x xs ih =>
      intro acc
      rw [List.filterAuxM, wp_bind]
      refine wp_mono _ (hp x (List.mem_cons_self ..)) ?_ fun _ _ hno => hno
      rintro b t ⟨rfl, rfl⟩
      exact ih (fun y hy => hp y (List.mem_cons_of_mem x hy)) acc
  rw [List.filterM, wp_bind]
  refine wp_mono _ (haux []) ?_ fun _ _ hno => hno
  rintro ys t ⟨rfl, rfl⟩
  exact ⟨rfl, rfl⟩

end Lists

/-! ### Steps on a host -/

section Host

variable {σ : Type} {a : Action α} {E : Failure → Host → Prop} {h : Host}

theorem wp_write {Q : Unit → Host → Prop} (l : Level) (source text : String) :
    wp (Action.write l source text) Q E h = Q () { h with log := h.log ++ [⟨l, source, text⟩] } := rfl

theorem wp_attempt {Q : Except Failure α → Host → Prop} :
    wp (Action.attempt a) Q E h = wp a (fun x h' => Q (.ok x) h') (fun f h' => Q (.error f) h') h := by
  have hrun : (Action.attempt a).run h = (.ok (a.run h).1, (a.run h).2) := rfl
  unfold wp
  rw [hrun]
  rcases a.run h with ⟨_ | _, _⟩ <;> rfl

theorem wp_toAction {b : ActionWith σ α} {Q : α × σ → Host → Prop} (s : σ) :
    wp (b.toAction s) Q E h = wp b (fun x t => Q (x, t.1) t.2) (fun f t => E f t.2) (s, h) := by
  have hrun : (b.toAction s).run h =
      ((b.run (s, h)).1.map (·, (b.run (s, h)).2.1), (b.run (s, h)).2.2) := rfl
  unfold wp
  rw [hrun]
  rcases b.run (s, h) with ⟨_ | _, _, _⟩ <;> rfl

variable {Q : α → σ × Host → Prop} {F : Failure → σ × Host → Prop} {s : σ × Host}

theorem wp_lift : wp (liftM a : ActionWith σ α) Q F s =
    wp a (fun x h' => Q x (s.1, h')) (fun f h' => F f (s.1, h')) s.2 := by
  have hrun : (liftM a : ActionWith σ α).run s = ((a.run s.2).1, (s.1, (a.run s.2).2)) := rfl
  unfold wp
  rw [hrun]
  rcases a.run s.2 with ⟨_ | _, _⟩ <;> rfl

theorem wp_kept {Q : σ → σ × Host → Prop} : wp (ActionWith.kept : ActionWith σ σ) Q F s = Q s.1 s := rfl

theorem wp_update {Q : Unit → σ × Host → Prop} (f : σ → σ) :
    wp (ActionWith.update f) Q F s = Q () (f s.1, s.2) := rfl

end Host

end Bundler

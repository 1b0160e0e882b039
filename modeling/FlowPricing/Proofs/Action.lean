/-
How actions run. An action made of parts succeeds exactly if its parts
succeed one after another: the `…_eq_ok` lemmas take a successful run
apart, `Ensures` puts one together where nothing can fail, and `Fails` says
with what errors one can end. Where every part may only take the state, the
whole may only take it, and that however the run ends: `Moves` carries such
frames through the combinators, failures included, and `Leaves` is the case
where something is left alone. Two steps without state that end alike, with
the same error or with related results, match (`Matches`).
-/
import FlowPricing.Action
import Mathlib.Data.List.Forall2
import Mathlib.Order.Defs.Unbundled

namespace FlowPricing.Action

variable {ε ε' σ τ κ α β : Type}

-- ========================================================= successful runs

/-- A value alone succeeds and leaves the state as it is. -/
theorem pure_eq_ok {a b : α} {s t : σ} :
    (pure a : Action ε σ α) s = .ok b t ↔ a = b ∧ s = t := by
  show EStateM.Result.ok a s = .ok b t ↔ _
  simp

/-- Throwing an error never succeeds. -/
theorem throw_ne_ok {e : ε} {b : α} {s t : σ} :
    (throw e : Action ε σ α) s ≠ .ok b t := nofun

/-- A sequence succeeds exactly if its first half does and then the
second half does from there. -/
theorem bind_eq_ok {act : Action ε σ α} {f : α → Action ε σ β} {s u : σ}
    {b : β} :
    (act >>= f) s = .ok b u
      ↔ ∃ a t, act s = .ok a t ∧ f a t = .ok b u := by
  show EStateM.bind act f s = .ok b u ↔ _
  unfold EStateM.bind
  cases act s with
  | ok a t =>
      constructor
      · intro h
        exact ⟨a, t, rfl, h⟩
      · intro h
        obtain ⟨a', t', h, h'⟩ := h
        cases h
        exact h'
  | error e t => simp

/-- Reading the state first hands it to what follows. -/
theorem get_bind (f : σ → Action ε σ β) (s : σ) :
    ((get : Action ε σ σ) >>= f) s = f s s := rfl

/-- A change of the state always succeeds. -/
theorem modify_eq_ok {f : σ → σ} {s t : σ} {u : Unit} :
    (modify f : Action ε σ Unit) s = .ok u t ↔ f s = t := by
  show EStateM.Result.ok () (f s) = .ok u t ↔ _
  simp

/-- Renaming errors does not touch a success. -/
theorem mapError_eq_ok {g : ε → ε'} {act : Action ε σ α} {s t : σ} {a : α} :
    act.mapError g s = .ok a t ↔ act s = .ok a t := by
  unfold mapError
  cases act s with
  | ok b u => simp
  | error e u => simp

/-- An action on a part succeeds exactly if it does on that part alone. -/
theorem focus_eq_ok {get : σ → τ} {put : σ → τ → σ} {act : Action ε τ α}
    {s t : σ} {a : α} :
    act.focus get put s = .ok a t
      ↔ ∃ u, act (get s) = .ok a u ∧ put s u = t := by
  unfold focus
  cases act (get s) with
  | ok b u =>
      constructor
      · intro h
        cases h
        exact ⟨u, rfl, rfl⟩
      · intro h
        obtain ⟨u', h, rfl⟩ := h
        cases h
        rfl
  | error e u => simp

/-- A step without state succeeds exactly if its outcome is a value. -/
theorem ofExcept_eq_ok {x : Except ε α} {s t : σ} {a : α} :
    (ofExcept x : Action ε σ α) s = .ok a t ↔ x = .ok a ∧ s = t := by
  cases x with
  | ok b => simpa [ofExcept] using pure_eq_ok
  | error e => simpa [ofExcept] using throw_ne_ok

/-- A run over a list succeeds exactly if the head succeeds and then the
rest does. -/
theorem mapM_cons_eq_ok {f : α → Action ε σ β} {a : α} {l : List α}
    {s u : σ} {bs : List β} :
    (a :: l).mapM f s = .ok bs u
      ↔ ∃ b t bs', f a s = .ok b t ∧ l.mapM f t = .ok bs' u
          ∧ bs = b :: bs' := by
  rw [List.mapM_cons, bind_eq_ok]
  constructor
  · intro h
    obtain ⟨b, t, hb, h⟩ := h
    obtain ⟨bs', u', hbs', h⟩ := bind_eq_ok.1 h
    obtain ⟨rfl, rfl⟩ := pure_eq_ok.1 h
    exact ⟨b, t, bs', hb, hbs', rfl⟩
  · intro h
    obtain ⟨b, t, bs', hb, hbs', rfl⟩ := h
    exact ⟨b, t, hb, bind_eq_ok.2 ⟨bs', u, hbs', rfl⟩⟩

/-- A run over the empty list does nothing. -/
theorem mapM_nil_eq_ok {f : α → Action ε σ β} {s u : σ} {bs : List β} :
    ([] : List α).mapM f s = .ok bs u ↔ bs = [] ∧ s = u := by
  rw [List.mapM_nil, pure_eq_ok, eq_comm]

/-- Runs over two lists, one after the other, are a run over both. -/
theorem mapM_append_of_ok {f : α → Action ε σ β} {k l : List α} {s t u : σ}
    {bs cs : List β} (hk : k.mapM f s = .ok bs t) (hl : l.mapM f t = .ok cs u) :
    (k ++ l).mapM f s = .ok (bs ++ cs) u := by
  rw [List.mapM_append]
  exact bind_eq_ok.2 ⟨bs, t, hk, bind_eq_ok.2 ⟨cs, u, hl, rfl⟩⟩

/-- If every success keeps `P` of the state and relates what it returns, the
results of a run over a list are related to the list. -/
theorem forall₂_of_mapM {P : σ → Prop} {R : α → β → Prop} {f : α → Action ε σ β}
    (hf : ∀ s a b t, P s → f a s = .ok b t → R a b ∧ P t) {l : List α} {s t : σ}
    {bs : List β} (hs : P s) (h : l.mapM f s = .ok bs t) :
    List.Forall₂ R l bs ∧ P t := by
  induction l generalizing s bs with
  | nil =>
      obtain ⟨rfl, rfl⟩ := mapM_nil_eq_ok.1 h
      exact ⟨.nil, hs⟩
  | cons a l ih =>
      obtain ⟨b, u, cs, hb, hcs, rfl⟩ := mapM_cons_eq_ok.1 h
      obtain ⟨hab, hu⟩ := hf s a b u hs hb
      obtain ⟨hall, ht⟩ := ih hu hcs
      exact ⟨.cons hab hall, ht⟩

/-- A run over two lists is one over the first and then one over the
second. -/
theorem forM_append (k l : List α) (f : α → Action ε σ Unit) :
    (k ++ l).forM f = (k.forM f >>= fun _ => l.forM f) := List.forM_append

/-- A run over a list for its effects succeeds exactly if the head
succeeds and then the rest does. -/
theorem forM_cons_eq_ok {f : α → Action ε σ Unit} {a : α} {l : List α}
    {s u : σ} {x : Unit} :
    (a :: l).forM f s = .ok x u
      ↔ ∃ t, f a s = .ok () t ∧ l.forM f t = .ok () u := by
  show (f a >>= fun _ => l.forM f) s = .ok x u ↔ _
  rw [bind_eq_ok]
  constructor
  · intro h
    obtain ⟨⟨⟩, t, ha, hl⟩ := h
    exact ⟨t, ha, hl⟩
  · intro h
    obtain ⟨t, ha, hl⟩ := h
    exact ⟨(), t, ha, hl⟩

/-- A run for its effects over the empty list does nothing. -/
theorem forM_nil_eq_ok {f : α → Action ε σ Unit} {s u : σ} {x : Unit} :
    ([] : List α).forM f s = .ok x u ↔ s = u := by
  show (pure () : Action ε σ Unit) s = .ok x u ↔ _
  rw [pure_eq_ok]
  simp

-- ============================================================= failures

/-- A value alone never fails. -/
theorem pure_ne_error {a : α} {e : ε} {s t : σ} :
    (pure a : Action ε σ α) s ≠ .error e t := nofun

/-- A change of the state never fails. -/
theorem modify_ne_error {f : σ → σ} {e : ε} {s t : σ} :
    (modify f : Action ε σ Unit) s ≠ .error e t := nofun

/-- A sequence fails exactly if its first half does, or if that succeeds
and the second half fails from there. -/
theorem bind_eq_error {act : Action ε σ α} {f : α → Action ε σ β}
    {s u : σ} {e : ε} :
    (act >>= f) s = .error e u
      ↔ act s = .error e u ∨ ∃ a t, act s = .ok a t ∧ f a t = .error e u := by
  show EStateM.bind act f s = .error e u ↔ _
  unfold EStateM.bind
  cases act s with
  | ok a t =>
      constructor
      · exact fun h => .inr ⟨a, t, rfl, h⟩
      · rintro (h | ⟨a', t', h, h'⟩)
        · exact nomatch h
        · cases h
          exact h'
  | error e' t => simp

/-- An action on a part fails exactly if it does on that part alone. -/
theorem focus_eq_error {get : σ → τ} {put : σ → τ → σ} {act : Action ε τ α}
    {s t : σ} {e : ε} :
    act.focus get put s = .error e t
      ↔ ∃ u, act (get s) = .error e u ∧ put s u = t := by
  unfold focus
  cases act (get s) <;> simp

/-- A renamed error was an error before. -/
theorem mapError_eq_error {g : ε → ε'} {act : Action ε σ α} {s t : σ} {e : ε'} :
    act.mapError g s = .error e t ↔ ∃ e', act s = .error e' t ∧ g e' = e := by
  unfold mapError
  cases act s with
  | ok a u => simp
  | error e' u =>
      constructor
      · intro h
        cases h
        exact ⟨e', rfl, rfl⟩
      · rintro ⟨e'', h, rfl⟩
        cases h
        rfl

/-- A run over a list fails exactly if it fails at one of the elements, after
all before it have succeeded. -/
theorem mapM_eq_error {f : α → Action ε σ β} {l : List α} {s u : σ} {e : ε} :
    l.mapM f s = .error e u
      ↔ ∃ done a rest bs t, l = done ++ a :: rest ∧ done.mapM f s = .ok bs t
          ∧ f a t = .error e u := by
  induction l generalizing s with
  | nil =>
      rw [List.mapM_nil]
      constructor
      · exact fun h => absurd h pure_ne_error
      · intro h
        obtain ⟨done, a, rest, _, _, hl, -⟩ := h
        exact absurd hl (by simp)
  | cons b l ih =>
      rw [List.mapM_cons, bind_eq_error]
      constructor
      · intro h
        rcases h with h | ⟨c, t, hb, h⟩
        · exact ⟨[], b, l, [], s, rfl, mapM_nil_eq_ok.2 ⟨rfl, rfl⟩, h⟩
        rcases bind_eq_error.1 h with h | ⟨cs, t', -, h⟩
        · obtain ⟨done, a, rest, bs, t', rfl, hdone, ha⟩ := ih.1 h
          exact ⟨b :: done, a, rest, c :: bs, t', rfl,
            mapM_cons_eq_ok.2 ⟨c, t, bs, hb, hdone, rfl⟩, ha⟩
        · exact absurd h pure_ne_error
      · intro h
        obtain ⟨done, a, rest, bs, t, hl, hdone, ha⟩ := h
        cases done with
        | nil =>
            obtain ⟨rfl, rfl⟩ := List.cons.inj hl
            obtain ⟨-, rfl⟩ := mapM_nil_eq_ok.1 hdone
            exact .inl ha
        | cons d done =>
            obtain ⟨rfl, rfl⟩ := List.cons.inj hl
            obtain ⟨c, t₁, cs, hc, hcs, -⟩ := mapM_cons_eq_ok.1 hdone
            refine .inr ⟨c, t₁, hc, bind_eq_error.2 (.inl ?_)⟩
            exact ih.2 ⟨done, a, rest, cs, t, rfl, hcs, ha⟩

/-- A run for its effects fails exactly if it fails at one of the elements,
after all before it have succeeded. -/
theorem forM_eq_error {f : α → Action ε σ Unit} {l : List α} {s u : σ} {e : ε} :
    l.forM f s = .error e u
      ↔ ∃ done a rest t, l = done ++ a :: rest ∧ done.forM f s = .ok () t
        ∧ f a t = .error e u := by
  induction l generalizing s with
  | nil =>
      constructor
      · exact fun h => absurd h pure_ne_error
      · intro h
        obtain ⟨done, a, rest, _, hl, -⟩ := h
        exact absurd hl (by simp)
  | cons b l ih =>
      show (f b >>= fun _ => l.forM f) s = .error e u ↔ _
      rw [bind_eq_error]
      constructor
      · intro h
        rcases h with h | ⟨⟨⟩, t, hb, h⟩
        · exact ⟨[], b, l, s, rfl, forM_nil_eq_ok.2 rfl, h⟩
        · obtain ⟨done, a, rest, t', rfl, hdone, ha⟩ := ih.1 h
          exact ⟨b :: done, a, rest, t', rfl,
            forM_cons_eq_ok.2 ⟨t, hb, hdone⟩, ha⟩
      · intro h
        obtain ⟨done, a, rest, t, hl, hdone, ha⟩ := h
        cases done with
        | nil =>
            obtain ⟨rfl, rfl⟩ := List.cons.inj hl
            obtain rfl := forM_nil_eq_ok.1 hdone
            exact .inl ha
        | cons d done =>
            obtain ⟨rfl, rfl⟩ := List.cons.inj hl
            obtain ⟨t₁, hd, hdone⟩ := forM_cons_eq_ok.1 hdone
            exact .inr ⟨(), t₁, hd, ih.2 ⟨done, a, rest, t, rfl, hdone, ha⟩⟩

-- ================================================== steps without state

/-- A sequence of steps succeeds exactly if one does and then the other. -/
theorem except_bind_eq_ok {x : Except ε α} {f : α → Except ε β} {b : β} :
    (x >>= f) = .ok b ↔ ∃ a, x = .ok a ∧ f a = .ok b := by
  cases x with
  | ok a =>
      constructor
      · intro h
        exact ⟨a, rfl, h⟩
      · intro h
        obtain ⟨a', h, h'⟩ := h
        cases h
        exact h'
  | error e =>
      constructor
      · intro h
        cases h
      · intro h
        obtain ⟨a', h, -⟩ := h
        cases h

/-- A sequence of steps fails exactly if the first does, or if that succeeds
and the second fails. -/
theorem except_bind_eq_error {x : Except ε α} {f : α → Except ε β} {e : ε} :
    (x >>= f) = .error e ↔ x = .error e ∨ ∃ a, x = .ok a ∧ f a = .error e := by
  cases x with
  | ok a =>
      constructor
      · exact fun h => .inr ⟨a, rfl, h⟩
      · intro h
        obtain ⟨a', h, h'⟩ := h.resolve_left nofun
        cases h
        exact h'
  | error e' =>
      show Except.error e' = .error e ↔ _
      simp

theorem except_pure_eq_ok {a b : α} :
    (pure a : Except ε α) = .ok b ↔ a = b := by
  show Except.ok a = .ok b ↔ _
  simp

/-- Steps over a list succeed exactly if each of them does. -/
theorem except_mapM_eq_ok {f : α → Except ε β} {l : List α} {bs : List β} :
    l.mapM f = .ok bs ↔ List.Forall₂ (fun a b => f a = .ok b) l bs := by
  induction l generalizing bs with
  | nil =>
      rw [List.mapM_nil, except_pure_eq_ok, List.forall₂_nil_left_iff, eq_comm]
  | cons a l ih =>
      rw [List.mapM_cons, except_bind_eq_ok, List.forall₂_cons_left_iff]
      constructor
      · intro h
        obtain ⟨b, hb, h⟩ := h
        obtain ⟨bs', hbs', h⟩ := except_bind_eq_ok.1 h
        exact ⟨b, bs', hb, ih.1 hbs', (except_pure_eq_ok.1 h).symm⟩
      · intro h
        obtain ⟨b, bs', hb, hbs', rfl⟩ := h
        exact ⟨b, hb, except_bind_eq_ok.2 ⟨bs', ih.2 hbs', rfl⟩⟩

/-- Steps over a list fail exactly if one of them does, after all before it have
succeeded. -/
theorem except_mapM_eq_error {f : α → Except ε β} {l : List α} {e : ε} :
    l.mapM f = .error e
      ↔ ∃ done a rest bs, l = done ++ a :: rest ∧ done.mapM f = .ok bs
        ∧ f a = .error e := by
  induction l with
  | nil =>
      rw [List.mapM_nil]
      constructor
      · exact nofun
      · intro h
        obtain ⟨done, a, rest, _, hl, -⟩ := h
        exact absurd hl (by simp)
  | cons b l ih =>
      rw [List.mapM_cons, except_bind_eq_error]
      constructor
      · intro h
        rcases h with h | ⟨c, hb, h⟩
        · exact ⟨[], b, l, [], rfl, rfl, h⟩
        rcases except_bind_eq_error.1 h with h | ⟨cs, -, h⟩
        · obtain ⟨done, a, rest, bs, rfl, hdone, ha⟩ := ih.1 h
          refine ⟨b :: done, a, rest, c :: bs, rfl, ?_, ha⟩
          exact except_mapM_eq_ok.2 (.cons hb (except_mapM_eq_ok.1 hdone))
        · exact nomatch h
      · intro h
        obtain ⟨done, a, rest, bs, hl, hdone, ha⟩ := h
        cases done with
        | nil =>
            obtain ⟨rfl, rfl⟩ := List.cons.inj hl
            exact .inl ha
        | cons d done =>
            obtain ⟨rfl, rfl⟩ := List.cons.inj hl
            cases except_mapM_eq_ok.1 hdone with
            | @cons _ c _ cs hc hcs =>
                refine .inr ⟨c, hc, except_bind_eq_error.2 (.inl ?_)⟩
                exact ih.2 ⟨done, a, rest, cs, rfl, except_mapM_eq_ok.2 hcs, ha⟩

/-- Whether a step succeeds with a value that passes a test. -/
def yields (x : Except ε α) (test : α → Bool) : Bool :=
  match x with
  | .ok a => test a
  | .error _ => false

theorem exists_of_yields {x : Except ε α} {test : α → Bool}
    (h : yields x test = true) :
    ∃ a, x = .ok a ∧ test a = true := by
  cases x with
  | ok a => exact ⟨a, rfl, h⟩
  | error e => cases h

/-- In lists related element by element, everything on the right comes from
something on the left. -/
theorem exists_of_mem_right {R : α → β → Prop} {as : List α} {bs : List β}
    (h : List.Forall₂ R as bs) {b : β} (hb : b ∈ bs) : ∃ a ∈ as, R a b := by
  induction h with
  | nil => exact absurd hb List.not_mem_nil
  | @cons a' b' as' bs' hab _ ih =>
      rcases List.mem_cons.1 hb with rfl | hb
      · exact ⟨a', List.mem_cons_self, hab⟩
      · obtain ⟨a, ha, hr⟩ := ih hb
        exact ⟨a, List.mem_cons_of_mem a' ha, hr⟩

/-- What is related element by element has a partner for each. -/
theorem exists_of_mem_left {R : α → β → Prop} {as : List α} {bs : List β}
    (h : List.Forall₂ R as bs) {a : α} (ha : a ∈ as) : ∃ b ∈ bs, R a b := by
  have hflip : List.Forall₂ (flip R) bs as := h.flip
  exact exists_of_mem_right hflip ha

/-- Only what holds of the elements on the left counts. -/
theorem forall₂_congr_left {R S : α → β → Prop} {as : List α} {bs : List β}
    (h : ∀ a ∈ as, ∀ b, R a b ↔ S a b) :
    List.Forall₂ R as bs ↔ List.Forall₂ S as bs := by
  induction as generalizing bs with
  | nil => rw [List.forall₂_nil_left_iff, List.forall₂_nil_left_iff]
  | cons a as ih =>
      rw [List.forall₂_cons_left_iff, List.forall₂_cons_left_iff]
      refine exists_congr fun b => exists_congr fun bs' =>
        and_congr ?_ (and_congr_left' ?_)
      · exact h a List.mem_cons_self b
      · exact ih fun a' ha' => h a' (List.mem_cons_of_mem a ha')

/-- What is found for every element can be listed beside them. -/
theorem exists_forall₂ {R : α → β → Prop} {as : List α}
    (h : ∀ a ∈ as, ∃ b, R a b) :
    ∃ bs, List.Forall₂ R as bs := by
  induction as with
  | nil => exact ⟨[], .nil⟩
  | cons a as ih =>
      obtain ⟨b, hb⟩ := h a List.mem_cons_self
      obtain ⟨bs, hbs⟩ := ih fun a' ha' => h a' (List.mem_cons_of_mem a ha')
      exact ⟨b :: bs, .cons hb hbs⟩

-- ======================================================== side by side

/-- The same error on both sides, or results that are related. -/
inductive Matches (R : α → β → Prop) : Except ε α → Except ε β → Prop
  | ok {a : α} {b : β} (related : R a b) : Matches R (.ok a) (.ok b)
  | error (e : ε) : Matches R (.error e) (.error e)

namespace Matches

variable {γ δ : Type} {R : α → β → Prop} {x : Except ε α} {y : Except ε β}

theorem refl (x : Except ε α) : Matches Eq x x := by
  cases x with
  | ok a => exact .ok rfl
  | error e => exact .error e

/-- Steps that match, one after the other. -/
theorem bind {S : γ → δ → Prop} {f : α → Except ε γ} {g : β → Except ε δ}
    (h : Matches R x y)
    (hstep : ∀ a b, x = .ok a → y = .ok b → R a b → Matches S (f a) (g b)) :
    Matches S (x >>= f) (y >>= g) := by
  cases h with
  | ok related => exact hstep _ _ rfl rfl related
  | error e => exact .error e

/-- Values that match still do once one of them is rewritten. -/
theorem map_right {T : α → δ → Prop} {f : β → δ} (h : Matches R x y)
    (hR : ∀ a b, R a b → T a (f b)) : Matches T x (y.map f) := by
  cases h with
  | ok related => exact .ok (hR _ _ related)
  | error e => exact .error e

end Matches

-- ========================================================= over elements

theorem each_nil_eq_ok {act : Action ε (α × σ) β} {s t : σ} {as : List α}
    {bs : List β} :
    act.each ([], s) = .ok bs (as, t) ↔ bs = [] ∧ as = [] ∧ s = t := by
  show EStateM.Result.ok [] ([], s) = .ok bs (as, t) ↔ _
  constructor
  · intro h
    cases h
    exact ⟨rfl, rfl, rfl⟩
  · intro h
    obtain ⟨rfl, rfl, rfl⟩ := h
    rfl

/-- An action on every element begins with the head; unless that ends it, the
rest follows. -/
theorem each_cons (act : Action ε (α × σ) β) (a : α) (as : List α) (s : σ) :
    act.each (a :: as, s)
      = match act (a, s) with
        | .error e (c, t) => .error e (c :: as, t)
        | .ok b (c, t) =>
            match act.each (as, t) with
            | .ok bs (cs, u) => .ok (b :: bs) (c :: cs, u)
            | .error e (cs, u) => .error e (c :: cs, u) := rfl

/-- An action on every element succeeds exactly if it does on the head and
then on the rest. -/
theorem each_cons_eq_ok {act : Action ε (α × σ) β} {a : α}
    {as cs : List α} {s u : σ} {bs : List β} :
    act.each (a :: as, s) = .ok bs (cs, u)
      ↔ ∃ b bs' c cs' t, act (a, s) = .ok b (c, t)
          ∧ act.each (as, t) = .ok bs' (cs', u) ∧ bs = b :: bs'
          ∧ cs = c :: cs' := by
  rw [each_cons]
  constructor
  · intro h
    cases hact : act (a, s) with
    | error e st =>
        rw [hact] at h
        exact nomatch h
    | ok b st =>
        rw [hact] at h
        simp only at h
        cases hrest : act.each (as, st.2) with
        | error e st' =>
            rw [hrest] at h
            exact nomatch h
        | ok bs' st' =>
            rw [hrest] at h
            cases h
            exact ⟨b, bs', st.1, st'.1, st.2, rfl, hrest, rfl, rfl⟩
  · rintro ⟨b, bs', c, cs', t, hact, hrest, rfl, rfl⟩
    simp only [hact, hrest]

/-- It fails exactly if it does on the head, or if that succeeds and it fails
on the rest. -/
theorem each_cons_eq_error {act : Action ε (α × σ) β} {a : α} {as cs : List α}
    {s u : σ} {e : ε} :
    act.each (a :: as, s) = .error e (cs, u)
      ↔ (∃ c, act (a, s) = .error e (c, u) ∧ cs = c :: as)
        ∨ ∃ b c cs' t, act (a, s) = .ok b (c, t)
            ∧ act.each (as, t) = .error e (cs', u) ∧ cs = c :: cs' := by
  rw [each_cons]
  cases hact : act (a, s) with
  | error e' st =>
      simp only [EStateM.Result.error.injEq, Prod.mk.injEq, reduceCtorEq,
        false_and, exists_false, or_false]
      constructor
      · intro h
        obtain ⟨rfl, rfl, rfl⟩ := h
        exact ⟨st.1, ⟨rfl, rfl⟩, rfl⟩
      · intro h
        obtain ⟨c, ⟨rfl, rfl⟩, rfl⟩ := h
        exact ⟨rfl, rfl, rfl⟩
  | ok b st =>
      obtain ⟨c, t⟩ := st
      simp only [reduceCtorEq, false_and, exists_false, false_or]
      cases hrest : act.each (as, t) with
      | ok bs st' =>
          refine ⟨nofun, fun h => ?_⟩
          obtain ⟨b', c', cs', t', hok, herror, -⟩ := h
          obtain ⟨-, rfl, rfl⟩ := hok
          exact nomatch hrest.symm.trans herror
      | error e' st' =>
          constructor
          · intro h
            cases h
            exact ⟨b, c, st'.1, t, rfl, hrest, rfl⟩
          · intro h
            obtain ⟨b', c', cs', t', hok, herror, rfl⟩ := h
            obtain ⟨-, rfl, rfl⟩ := hok
            cases hrest.symm.trans herror
            rfl

theorem step_eq_ok {f : α → Except ε (β × α)} {a c : α} {s t : σ} {b : β} :
    (step f : Action ε (α × σ) β) (a, s) = .ok b (c, t)
      ↔ f a = .ok (b, c) ∧ s = t := by
  unfold step
  cases hf : f a with
  | ok r =>
      obtain ⟨b', c'⟩ := r
      simp [and_assoc]
  | error e => simp

/-- Changes without a trace on every element succeed exactly if each of
them does. -/
theorem each_step_eq_ok {f : α → Except ε (β × α)} {as cs : List α} {s t : σ}
    {bs : List β} :
    (step f : Action ε (α × σ) β).each (as, s) = .ok bs (cs, t)
      ↔ s = t ∧ ∃ rs, as.mapM f = .ok rs ∧ bs = rs.map Prod.fst
        ∧ cs = rs.map Prod.snd := by
  induction as generalizing cs bs s with
  | nil =>
      rw [each_nil_eq_ok, List.mapM_nil]
      constructor
      · intro h
        obtain ⟨rfl, rfl, hst⟩ := h
        exact ⟨hst, [], rfl, rfl, rfl⟩
      · intro h
        obtain ⟨hst, rs, hrs, rfl, rfl⟩ := h
        obtain rfl := except_pure_eq_ok.1 hrs
        exact ⟨rfl, rfl, hst⟩
  | cons a as ih =>
      rw [each_cons_eq_ok, List.mapM_cons]
      constructor
      · intro h
        obtain ⟨b, bs', c, cs', u, ha, hrest, rfl, rfl⟩ := h
        obtain ⟨hfa, rfl⟩ := step_eq_ok.1 ha
        obtain ⟨hst, rs, hrs, rfl, rfl⟩ := ih.1 hrest
        exact ⟨hst, (b, c) :: rs, except_bind_eq_ok.2
          ⟨_, hfa, except_bind_eq_ok.2 ⟨rs, hrs, rfl⟩⟩, rfl, rfl⟩
      · intro h
        obtain ⟨hst, rs, hrs, rfl, rfl⟩ := h
        obtain ⟨⟨b, c⟩, hfa, hrs⟩ := except_bind_eq_ok.1 hrs
        obtain ⟨rs', hrs', hrs⟩ := except_bind_eq_ok.1 hrs
        obtain rfl := except_pure_eq_ok.1 hrs
        exact ⟨b, _, c, _, s, step_eq_ok.2 ⟨hfa, rfl⟩,
          ih.2 ⟨hst, rs', hrs', rfl, rfl⟩, rfl, rfl⟩

/-- If every success of an action maps the element and keeps `P` of what is
beside it, a run over all elements maps them all. -/
theorem each_map {P : σ → Prop} {F : α → α} {act : Action ε (α × σ) β}
    (hact : ∀ a s b c t, P s → act (a, s) = .ok b (c, t) → c = F a ∧ P t)
    {as cs : List α} {s t : σ} {bs : List β} (hs : P s)
    (h : act.each (as, s) = .ok bs (cs, t)) : cs = as.map F ∧ P t := by
  induction as generalizing cs s bs with
  | nil =>
      obtain ⟨-, rfl, rfl⟩ := each_nil_eq_ok.1 h
      exact ⟨rfl, hs⟩
  | cons a as ih =>
      obtain ⟨b, bs', c, cs', u, ha, hrest, rfl, rfl⟩ := each_cons_eq_ok.1 h
      obtain ⟨rfl, hu⟩ := hact a s b c u hs ha
      obtain ⟨rfl, ht⟩ := ih hu hrest
      exact ⟨rfl, ht⟩

/-- If every success of an action does to the keys of an element what `g`
does, and keeps the rest of it, a run over all elements does to their keys
what `g` does one after another. -/
theorem each_collects {γ δ : Type} {g : γ → Action ε σ γ} {key : α → List γ}
    {rest : α → δ} {act : Action ε (α × σ) β}
    (hact : ∀ a s b c t, act (a, s) = .ok b (c, t) →
      (key a).mapM g s = .ok (key c) t ∧ rest c = rest a)
    {as cs : List α} {s t : σ} {bs : List β}
    (h : act.each (as, s) = .ok bs (cs, t)) :
    (as.flatMap key).mapM g s = .ok (cs.flatMap key) t
      ∧ cs.map rest = as.map rest := by
  induction as generalizing cs s bs with
  | nil =>
      obtain ⟨-, rfl, rfl⟩ := each_nil_eq_ok.1 h
      exact ⟨mapM_nil_eq_ok.2 ⟨rfl, rfl⟩, rfl⟩
  | cons a as ih =>
      obtain ⟨b, bs', c, cs', u, ha, hrest, rfl, rfl⟩ := each_cons_eq_ok.1 h
      obtain ⟨hkeys, hkept⟩ := hact a s b c u ha
      obtain ⟨hall, hothers⟩ := ih hrest
      refine ⟨?_, ?_⟩
      · rw [List.flatMap_cons, List.flatMap_cons]
        exact mapM_append_of_ok hkeys hall
      · rw [List.map_cons, List.map_cons, hkept, hothers]

/-- Asked for one answer after another, `g` gives some and then fails. The
answers stand in the place of what was asked about; the rest is as it was. -/
def Breaks {γ : Type} (g : γ → Action ε σ γ) (ks : List γ) (s : σ) (e : ε)
    (ls : List γ) (t : σ) : Prop :=
  ∃ done k rest answers u, ks = done ++ k :: rest
    ∧ done.mapM g s = .ok answers u
    ∧ g k u = .error e t ∧ ls = answers ++ k :: rest

section Breaks

variable {γ : Type} {g : γ → Action ε σ γ} {ks ls ks' ls' : List γ} {s t u : σ}
  {e : ε}

/-- What would have come after the failure was not reached. -/
theorem Breaks.before (h : Breaks g ks s e ls t) (rest : List γ) :
    Breaks g (ks ++ rest) s e (ls ++ rest) t := by
  obtain ⟨done, k, left, answers, u, rfl, hdone, hk, rfl⟩ := h
  exact ⟨done, k, left ++ rest, answers, u, List.append_assoc .., hdone, hk,
    List.append_assoc ..⟩

/-- What came before the failure has its results all the same. -/
theorem Breaks.behind (hfirst : ks'.mapM g u = .ok ls' s)
    (h : Breaks g ks s e ls t) :
    Breaks g (ks' ++ ks) u e (ls' ++ ls) t := by
  obtain ⟨done, k, rest, answers, v, rfl, hdone, hk, rfl⟩ := h
  exact ⟨ks' ++ done, k, rest, ls' ++ answers, v, (List.append_assoc ..).symm,
    mapM_append_of_ok hfirst hdone, hk, (List.append_assoc ..).symm⟩

/-- If an action does to the keys of an element what `g` does, as far as that
gets, and keeps the rest of it, a run that fails on one of the elements does
to the keys of all what `g` does as far as it gets. -/
theorem each_breaks {δ : Type} {key : α → List γ} {rest : α → δ}
    {act : Action ε (α × σ) β} (hok : ∀ a s b c t, act (a, s) = .ok b (c, t) →
      (key a).mapM g s = .ok (key c) t ∧ rest c = rest a)
    (herror : ∀ a s e c t, act (a, s) = .error e (c, t) →
      Breaks g (key a) s e (key c) t ∧ rest c = rest a)
    {as cs : List α} (h : act.each (as, s) = .error e (cs, t)) :
    Breaks g (as.flatMap key) s e (cs.flatMap key) t
      ∧ cs.map rest = as.map rest := by
  induction as generalizing cs s with
  | nil => exact nomatch h
  | cons a as ih =>
      rcases each_cons_eq_error.1 h with ⟨c, ha, rfl⟩
        | ⟨b, c, cs', u, ha, has, rfl⟩
      · obtain ⟨hkeys, hkept⟩ := herror a s e c t ha
        rw [List.flatMap_cons, List.flatMap_cons, List.map_cons,
          List.map_cons, hkept]
        exact ⟨hkeys.before _, rfl⟩
      · obtain ⟨hkeys, hkept⟩ := hok a s b c u ha
        obtain ⟨hall, hothers⟩ := ih has
        rw [List.flatMap_cons, List.flatMap_cons, List.map_cons, List.map_cons,
          hkept, hothers]
        exact ⟨hall.behind hkeys, rfl⟩

end Breaks

-- ======================================================= sure successes

/-- Where `P` holds the action succeeds, and `Q` holds of what it returns
and leaves. -/
def Ensures (P : σ → Prop) (act : Action ε σ α) (Q : α → σ → Prop) : Prop :=
  ∀ s, P s → ∃ a t, act s = .ok a t ∧ Q a t

section Ensures

variable {P : σ → Prop} {Q : α → σ → Prop} {R : β → σ → Prop}

theorem ensures_pure {a : α} (h : ∀ s, P s → Q a s) :
    Ensures P (pure a : Action ε σ α) Q := by
  intro s hs
  exact ⟨a, s, rfl, h s hs⟩

/-- What the first half ensures is what the second half may rely on. -/
theorem ensures_bind {act : Action ε σ α} {f : α → Action ε σ β}
    (hact : Ensures P act Q) (hf : ∀ a, Ensures (Q a) (f a) R) :
    Ensures P (act >>= f) R := by
  intro s hs
  obtain ⟨a, t, ha, hq⟩ := hact s hs
  obtain ⟨b, u, hb, hr⟩ := hf a t hq
  exact ⟨b, u, bind_eq_ok.2 ⟨a, t, ha, hb⟩, hr⟩

/-- A run over a list keeps what every part of it keeps. -/
theorem ensures_mapM {f : α → Action ε σ β} {l : List α}
    (h : ∀ a ∈ l, Ensures P (f a) fun _ => P) :
    Ensures P (l.mapM f) fun _ => P := by
  induction l with
  | nil =>
      rw [List.mapM_nil]
      exact ensures_pure fun _ => id
  | cons a l ih =>
      rw [List.mapM_cons]
      refine ensures_bind (h a List.mem_cons_self) fun b => ?_
      refine ensures_bind (ih fun a' ha' => h a' (List.mem_cons_of_mem a ha'))
        fun bs => ?_
      exact ensures_pure fun _ => id

theorem ensures_forM {f : α → Action ε σ Unit} {l : List α}
    (h : ∀ a ∈ l, Ensures P (f a) fun _ => P) :
    Ensures P (l.forM f) fun _ => P := by
  induction l with
  | nil => exact ensures_pure fun _ => id
  | cons a l ih =>
      refine ensures_bind (h a List.mem_cons_self) fun _ => ?_
      exact ih fun a' ha' => h a' (List.mem_cons_of_mem a ha')

end Ensures

-- ===================================================== known failures

/-- Every error that the action can end with is one of `E`. -/
def Fails (E : ε → Prop) (act : Action ε σ α) : Prop :=
  ∀ s e t, act s = .error e t → E e

section Fails

variable {E : ε → Prop}

theorem fails_pure (a : α) : Fails E (pure a : Action ε σ α) :=
  fun _ _ _ h => absurd h pure_ne_error

theorem fails_modify (f : σ → σ) : Fails E (modify f : Action ε σ Unit) :=
  fun _ _ _ h => absurd h modify_ne_error

/-- What follows a read of the state may depend on the state it read. -/
theorem fails_get_bind {f : σ → Action ε σ β} (hf : ∀ s, Fails E (f s)) :
    Fails E ((get : Action ε σ σ) >>= f) := fun s e t h => hf s s e t h

theorem fails_bind {act : Action ε σ α} {f : α → Action ε σ β}
    (hact : Fails E act) (hf : ∀ a, Fails E (f a)) : Fails E (act >>= f) := by
  intro s e t h
  rcases bind_eq_error.1 h with h | ⟨a, u, -, h⟩
  · exact hact s e t h
  · exact hf a u e t h

theorem fails_mapM {f : α → Action ε σ β} (hf : ∀ a, Fails E (f a))
    (l : List α) :
    Fails E (l.mapM f) := by
  induction l with
  | nil =>
      rw [List.mapM_nil]
      exact fails_pure _
  | cons a l ih =>
      rw [List.mapM_cons]
      exact fails_bind (hf a) fun _ => fails_bind ih fun _ => fails_pure _

theorem fails_forM {f : α → Action ε σ Unit} (hf : ∀ a, Fails E (f a))
    (l : List α) :
    Fails E (l.forM f) := by
  induction l with
  | nil => exact fails_pure ()
  | cons a l ih => exact fails_bind (hf a) fun _ => ih

theorem Fails.mono {F : ε → Prop} {act : Action ε σ α} (h : Fails E act)
    (hE : ∀ e, E e → F e) :
    Fails F act := fun s e t hact => hE e (h s e t hact)

theorem fails_throw {e : ε} (he : E e) : Fails E (throw e : Action ε σ α) := by
  intro s e' t h
  cases h
  exact he

theorem fails_ofExcept {x : Except ε α} (hx : ∀ e, x = .error e → E e) :
    Fails E (ofExcept x : Action ε σ α) := by
  cases x with
  | ok a => exact fails_pure a
  | error e => exact fails_throw (hx e rfl)

theorem fails_mapError {g : ε' → ε} {act : Action ε' σ α} (hg : ∀ e, E (g e)) :
    Fails E (act.mapError g) := by
  intro s e t h
  obtain ⟨e', -, rfl⟩ := mapError_eq_error.1 h
  exact hg e'

theorem fails_focus {get : σ → τ} {put : σ → τ → σ} {act : Action ε τ α}
    (h : Fails E act) :
    Fails E (act.focus get put) := by
  intro s e t hact
  obtain ⟨u, hact, -⟩ := focus_eq_error.1 hact
  exact h _ e u hact

theorem fails_step {f : α → Except ε (β × α)}
    (hf : ∀ a e, f a = .error e → E e) :
    Fails E (step f : Action ε (α × σ) β) := by
  rintro ⟨a, s⟩ e t h
  unfold step at h
  simp only at h
  cases hfa : f a with
  | ok r =>
      rw [hfa] at h
      exact nomatch h
  | error e' =>
      rw [hfa] at h
      cases h
      exact hf a _ hfa

/-- A run over all elements fails only with errors of one of them. -/
theorem fails_each {act : Action ε (α × σ) β} (hact : Fails E act) :
    Fails E act.each := by
  rintro ⟨as, s⟩ e ⟨cs, u⟩ h
  induction as generalizing s cs with
  | nil => exact nomatch h
  | cons a as ih =>
      rcases each_cons_eq_error.1 h with ⟨c, ha, -⟩ | ⟨b, c, cs', t, -, has, -⟩
      · exact hact (a, s) e (c, u) ha
      · exact ih t cs' has

end Fails

-- ================================================== the state afterwards

/-- The state an action leaves behind, whether it succeeds or fails. -/
def after (act : Action ε σ α) (s : σ) : σ :=
  match act s with
  | .ok _ t => t
  | .error _ t => t

theorem after_of_ok {act : Action ε σ α} {s t : σ} {a : α}
    (h : act s = .ok a t) : act.after s = t := by
  unfold after
  rw [h]

theorem after_of_error {act : Action ε σ α} {s t : σ} {e : ε}
    (h : act s = .error e t) : act.after s = t := by
  unfold after
  rw [h]

/-- What an action ends with, whether it succeeds or fails. -/
def result (act : Action ε σ α) (s : σ) : Except ε α :=
  match act s with
  | .ok a _ => .ok a
  | .error e _ => .error e

theorem result_of_ok {act : Action ε σ α} {s t : σ} {a : α}
    (h : act s = .ok a t) : act.result s = .ok a := by
  unfold result
  rw [h]

theorem result_of_error {act : Action ε σ α} {s t : σ} {e : ε}
    (h : act s = .error e t) : act.result s = .error e := by
  unfold result
  rw [h]

/-- A run that ends with an error leaves the state behind. -/
theorem eq_error_of_result {act : Action ε σ α} {s : σ} {e : ε}
    (h : act.result s = .error e) : act s = .error e (act.after s) := by
  cases hact : act s with
  | ok a t => exact nomatch (result_of_ok hact).symm.trans h
  | error e' t =>
      rw [after_of_error hact]
      obtain rfl := Except.error.inj ((result_of_error hact).symm.trans h)
      rfl

/-- Whether a run succeeds with an outcome that passes a test. -/
def passes (act : Action ε σ α) (test : α → σ → Bool) (s : σ) : Bool :=
  match act s with
  | .ok a t => test a t
  | .error _ _ => false

/-- An action that passes a test succeeds with a value that does. -/
theorem exists_of_passes {act : Action ε σ α} {test : α → σ → Bool} {s : σ}
    (h : act.passes test s = true) :
    ∃ a t, act s = .ok a t ∧ test a t = true := by
  unfold passes at h
  cases hact : act s with
  | ok a t =>
      rw [hact] at h
      exact ⟨a, t, rfl, h⟩
  | error e t =>
      rw [hact] at h
      exact nomatch h

/-- An action that passes no test at all has failed. -/
theorem exists_of_not_passes {act : Action ε σ α} {s : σ}
    (h : act.passes (fun _ _ => true) s = false) :
    ∃ e t, act s = .error e t := by
  unfold passes at h
  cases hact : act s with
  | ok a t =>
      rw [hact] at h
      exact nomatch h
  | error e t => exact ⟨e, t, rfl⟩

/-- Runs an action and tells whether it fails with this error. -/
def fails [DecidableEq ε] (act : Action ε σ α) (e : ε) (s : σ) : Bool :=
  match act s with
  | .ok _ _ => false
  | .error e' _ => decide (e' = e)

/-- An action that fails with an error leaves some state. -/
theorem exists_of_fails [DecidableEq ε] {act : Action ε σ α} {e : ε} {s : σ}
    (h : act.fails e s = true) : ∃ t, act s = .error e t := by
  unfold fails at h
  cases hact : act s with
  | ok a t =>
      rw [hact] at h
      exact nomatch h
  | error e' t =>
      rw [hact, decide_eq_true_iff] at h
      exact ⟨t, by rw [h]⟩

/-- After a sequence the state is the one its second half leaves, or, if
the first half fails, the one that leaves. -/
theorem after_bind (act : Action ε σ α) (f : α → Action ε σ β) (s : σ) :
    (act >>= f).after s
      = match act s with
        | .ok a t => (f a).after t
        | .error _ t => t := by
  show (match EStateM.bind act f s with
    | .ok _ t => t
    | .error _ t => t) = _
  unfold EStateM.bind
  cases act s with
  | ok a t => rfl
  | error e t => rfl

/-- The state afterwards is that of the run. -/
theorem after_congr {act act' : Action ε σ α} {s : σ} (h : act s = act' s) :
    act.after s = act'.after s := by
  unfold after
  rw [h]

@[simp] theorem after_mapError (g : ε → ε') (act : Action ε σ α) (s : σ) :
    (act.mapError g).after s = act.after s := by
  unfold after mapError
  cases act s <;> rfl

/-- Acting on a part of the state changes that part only. -/
@[simp] theorem after_focus (get : σ → τ) (put : σ → τ → σ)
    (act : Action ε τ α) (s : σ) :
    (act.focus get put).after s = put s (act.after (get s)) := by
  unfold after focus
  cases act (get s) <;> rfl

/-- The first element that fails stays as it was left, and those behind it
are not touched. -/
theorem after_each_cons (act : Action ε (α × σ) β) (a : α)
    (as : List α) (s : σ) :
    act.each.after (a :: as, s)
      = match act (a, s) with
        | .error _ (c, t) => (c :: as, t)
        | .ok _ (c, t) =>
          (c :: (act.each.after (as, t)).1, (act.each.after (as, t)).2) := by
  unfold after
  rw [each_cons]
  cases act (a, s) with
  | error e st => rfl
  | ok b st =>
      simp only
      cases act.each (as, st.2) <;> rfl

/-- However changes without a trace end, every element was changed or is as
it was. -/
theorem each_step_after (f : α → Except ε (β × α)) (as : List α) (s : σ) :
    ∃ cs, after (step f : Action ε (α × σ) β).each (as, s) = (cs, s)
      ∧ List.Forall₂ (fun a c => c = a ∨ ∃ b, f a = .ok (b, c)) as cs := by
  induction as with
  | nil => exact ⟨[], rfl, .nil⟩
  | cons a as ih =>
      obtain ⟨cs, hcs, hall⟩ := ih
      have hsame : List.Forall₂ (fun a c => c = a ∨ ∃ b, f a = .ok (b, c))
          as as :=
        List.forall₂_same.2 fun _ _ => .inl rfl
      rw [after_each_cons]
      unfold step
      cases hfa : f a with
      | error e =>
          exact ⟨a :: as, rfl, .cons (.inl rfl) hsame⟩
      | ok r =>
          unfold step at hcs
          simp only [hcs]
          exact ⟨r.2 :: cs, rfl, .cons (.inr ⟨r.1, hfa⟩) hall⟩

-- ================================================================ frames

/-- However the action ends, it takes the state where `R` lets it. -/
def Moves (R : σ → σ → Prop) (act : Action ε σ α) : Prop :=
  ∀ s, R s (act.after s)

/-- Two states of which `view` shows the same. -/
def Same (view : σ → κ) (s t : σ) : Prop := view t = view s

instance (view : σ → κ) : IsPreorder σ (Same view) where
  refl _ := rfl
  trans _ _ _ h₁ h₂ := h₂.trans h₁

/-- Two states whose parts are related. -/
def Along (Q : κ → κ → Prop) (view : σ → κ) (s t : σ) : Prop :=
  Q (view s) (view t)

instance (Q : κ → κ → Prop) [IsPreorder κ Q] (view : σ → κ) :
    IsPreorder σ (Along Q view) where
  refl s := refl_of Q (view s)
  trans _ _ _ h₁ h₂ := trans_of Q h₁ h₂

/-- The action leaves what `view` shows of the state alone, whatever its
outcome. -/
abbrev Leaves (view : σ → κ) (act : Action ε σ α) : Prop :=
  Moves (Same view) act

variable {R : σ → σ → Prop}

/-- An action that moves the state has moved it if it succeeds. -/
theorem Moves.of_ok {act : Action ε σ α} {s t : σ} {a : α} (hact : Moves R act)
    (h : act s = .ok a t) : R s t := by
  rw [← after_of_ok h]
  exact hact s

theorem Moves.of_error {act : Action ε σ α} {s t : σ} {e : ε}
    (hact : Moves R act) (h : act s = .error e t) : R s t := by
  rw [← after_of_error h]
  exact hact s

theorem moves_modify {f : σ → σ} (h : ∀ s, R s (f s)) :
    Moves R (modify f : Action ε σ Unit) := h

/-- What follows a read of the state may depend on the state it read. -/
theorem moves_get_bind {f : σ → Action ε σ β} (h : ∀ s, R s ((f s).after s)) :
    Moves R ((get : Action ε σ σ) >>= f) := h

/-- An action on a part takes the whole where putting the part back
does. -/
theorem moves_focus {get : σ → τ} {put : σ → τ → σ} {act : Action ε τ α}
    (h : ∀ s, R s (put s (act.after (get s)))) :
    Moves R (act.focus get put) := by
  intro s
  rw [after_focus]
  exact h s

theorem moves_mapError {act : Action ε σ α} (f : ε → ε') (h : Moves R act) :
    Moves R (act.mapError f) := by
  intro s
  rw [after_mapError]
  exact h s

variable [IsPreorder σ R]

theorem moves_pure (a : α) : Moves R (pure a : Action ε σ α) :=
  fun s => refl_of R s

theorem moves_throw (e : ε) : Moves R (throw e : Action ε σ α) :=
  fun s => refl_of R s

theorem moves_ofExcept (x : Except ε α) :
    Moves R (ofExcept x : Action ε σ α) := by
  cases x with
  | ok a => exact moves_pure a
  | error e => exact moves_throw e

/-- A sequence goes where its halves go. -/
theorem moves_bind {act : Action ε σ α} {f : α → Action ε σ β}
    (hact : Moves R act) (hf : ∀ a, Moves R (f a)) : Moves R (act >>= f) := by
  intro s
  rw [after_bind]
  have h := hact s
  unfold after at h
  cases hs : act s with
  | ok a t =>
      rw [hs] at h
      exact trans_of R h (hf a t)
  | error e t =>
      rw [hs] at h
      exact h

omit [IsPreorder σ R] in
/-- What follows and leaves the view alone shows nothing new. -/
theorem view_after_bind {view : σ → κ} {act : Action ε σ α}
    {f : α → Action ε σ β} (hf : ∀ a, Leaves view (f a)) (s : σ) :
    view ((act >>= f).after s) = view (act.after s) := by
  rw [after_bind]
  unfold after
  cases act s with
  | ok a t => exact hf a t
  | error e t => rfl

/-- A loop moves the state where its rounds do, one after another. -/
theorem moves_mapM_of_mem {f : α → Action ε σ β} {l : List α}
    (h : ∀ a ∈ l, Moves R (f a)) :
    Moves R (l.mapM f) := by
  induction l with
  | nil =>
      rw [List.mapM_nil]
      exact moves_pure _
  | cons a l ih =>
      rw [List.mapM_cons]
      have hrest := ih fun b hb => h b (List.mem_cons_of_mem a hb)
      exact moves_bind (h a List.mem_cons_self) fun _ =>
        moves_bind hrest fun _ => moves_pure _

theorem moves_mapM {f : α → Action ε σ β} (h : ∀ a, Moves R (f a))
    (l : List α) :
    Moves R (l.mapM f) := moves_mapM_of_mem fun a _ => h a

theorem moves_forM {f : α → Action ε σ Unit} (h : ∀ a, Moves R (f a))
    (l : List α) :
    Moves R (l.forM f) := by
  induction l with
  | nil => exact moves_pure ()
  | cons a l ih => exact moves_bind (h a) fun _ => ih

/-- What an action does beside an element, it does beside a list of them. -/
theorem moves_each {Q : σ → σ → Prop} [IsPreorder σ Q]
    {act : Action ε (α × σ) β} (hact : Moves (Along Q Prod.snd) act) :
    Moves (Along Q Prod.snd) act.each := by
  rintro ⟨as, s⟩
  show Q s (act.each.after (as, s)).2
  induction as generalizing s with
  | nil => exact refl_of Q s
  | cons a as ih =>
      have hfirst : Q s (act.after (a, s)).2 := hact (a, s)
      rw [after_each_cons]
      cases hone : act (a, s) with
      | error e st =>
          rw [after_of_error hone] at hfirst
          exact hfirst
      | ok b st =>
          rw [after_of_ok hone] at hfirst
          exact trans_of Q hfirst (ih st.2)

/-- What an action on an element leaves alone of it, a run over elements
leaves alone of all of them. -/
theorem leaves_each {view : α → κ} {act : Action ε (α × σ) β}
    (hact : Leaves (fun s => view s.1) act) :
    Leaves (fun s => s.1.map view) act.each := by
  rintro ⟨as, s⟩
  show (act.each.after (as, s)).1.map view = as.map view
  induction as generalizing s with
  | nil => rfl
  | cons a as ih =>
      have hfirst : view (act.after (a, s)).1 = view a := hact (a, s)
      rw [after_each_cons]
      cases hone : act (a, s) with
      | error e st =>
          rw [after_of_error hone] at hfirst
          exact congrArg (· :: as.map view) hfirst
      | ok b st =>
          rw [after_of_ok hone] at hfirst
          exact congrArg₂ List.cons hfirst (ih st.2)

end FlowPricing.Action

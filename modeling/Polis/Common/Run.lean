import Mathlib.Data.List.Induction

/-!
# Runs of a labelled transition system

`Run step s₀ es s` says that the events `es`, taken in order from `s₀`, lead to `s`. Events are
appended at the end, so a property of a whole history is proved from what one more event preserves.
-/

namespace Polis

open List Option

variable {σ ε : Type*}

/-- The events `es` lead from `s₀` to the last state, one `step` each. -/
inductive Run (step : σ → ε → σ → Prop) (s₀ : σ) : List ε → σ → Prop
  | nil : Run step s₀ [] s₀
  | snoc {es : List ε} {s : σ} {e : ε} {s' : σ} :
      Run step s₀ es s → step s e s' → Run step s₀ (es ++ [e]) s'

namespace Run

variable {step : σ → ε → σ → Prop} {s₀ s s' : σ} {es : List ε}

/-- A property of histories and states that every step extends holds of every run. -/
theorem invariant (I : List ε → σ → Prop) (h0 : I [] s₀)
    (hstep : ∀ es s e s', Run step s₀ es s → I es s → step s e s' → I (es ++ [e]) s')
    (h : Run step s₀ es s) : I es s := by
  induction h with
  | nil => exact h0
  | snoc hrun hs ih => exact hstep _ _ _ _ hrun ih hs

/-- A property of states that every step keeps holds at the end of every run. -/
theorem keeps (I : σ → Prop) (h0 : I s₀) (hstep : ∀ s e s', I s → step s e s' → I s')
    (h : Run step s₀ es s) : I s :=
  h.invariant (fun _ s => I s) h0 (fun _ s e s' _ hi hs => hstep s e s' hi hs)

/-- A run of a step relation is one of every weaker relation. -/
theorem mono {step' : σ → ε → σ → Prop} (hstep : ∀ s e s', step s e s' → step' s e s')
    (h : Run step s₀ es s) : Run step' s₀ es s := by
  induction h with
  | nil => exact .nil
  | snoc _ hs ih => exact .snoc ih (hstep _ _ _ hs)

/-- A run goes on with another from where it ends. -/
theorem append {es' : List ε} (h : Run step s₀ es s) (h' : Run step s es' s') :
    Run step s₀ (es ++ es') s' := by
  induction h' with
  | nil => simpa using h
  | snoc _ hs ih =>
    rw [← append_assoc]
    exact ih.snoc hs

/-- Values that events report increase over a run, if each is above what the state has reached and is
reached then, and the states never fall back. -/
theorem increasing {α : Type*} [LT α] (value : ε → Option α) (reached : σ → α → Prop)
    (hkeep : ∀ s e s' m, step s e s' → reached s m → reached s' m)
    (hnew : ∀ s e s' n, step s e s' → value e = some n →
      reached s' n ∧ ∀ m, reached s m → m < n)
    (h : Run step s₀ es s) :
    (es.filterMap value).Pairwise (· < ·) ∧ ∀ m ∈ es.filterMap value, reached s m := by
  induction h with
  | nil => exact ⟨.nil, fun m hm => nomatch hm⟩
  | @snoc es s e s' _ hs ih =>
    obtain ⟨hpairs, hreached⟩ := ih
    have hold : ∀ m ∈ es.filterMap value, reached s' m :=
      fun m hm => hkeep s e s' m hs (hreached m hm)
    rw [filterMap_append]
    cases he : value e with
    | none =>
      rw [filterMap_cons_none he, filterMap_nil, append_nil]
      exact ⟨hpairs, hold⟩
    | some n =>
      obtain ⟨hn, hlt⟩ := hnew s e s' n hs he
      rw [filterMap_cons_some he, filterMap_nil, pairwise_append]
      refine ⟨⟨hpairs, pairwise_singleton _ _, ?_⟩, ?_⟩
      · intro m hm n' hn'
        rw [mem_singleton.1 hn']
        exact hlt m (hreached m hm)
      · intro m hm
        rcases mem_append.1 hm with hm | hm
        · exact hold m hm
        · rw [mem_singleton.1 hm]
          exact hn

/-- The last step of a run that ends in `e`. -/
theorem snoc_inv {e : ε} (h : Run step s₀ (es ++ [e]) s') :
    ∃ s, Run step s₀ es s ∧ step s e s' := by
  generalize hes : es ++ [e] = es' at h
  cases h with
  | nil => simp at hes
  | snoc hrun hs =>
    obtain ⟨rfl, he⟩ := append_inj' hes rfl
    obtain rfl : e = _ := by simpa using he
    exact ⟨_, hrun, hs⟩

/-- Every prefix of a history is a run. -/
theorem prefix_run {post : List ε} (h : Run step s₀ (es ++ post) s') :
    ∃ s, Run step s₀ es s := by
  induction post using List.reverseRecOn generalizing s' with
  | nil => exact ⟨s', by simpa using h⟩
  | append_singleton post e ih =>
    rw [← append_assoc] at h
    obtain ⟨s, hs, -⟩ := h.snoc_inv
    exact ih hs

/-- A run of two histories passes through a state between them. -/
theorem append_inv {es' : List ε} (h : Run step s₀ (es ++ es') s') :
    ∃ s, Run step s₀ es s ∧ Run step s es' s' := by
  induction es' using List.reverseRecOn generalizing s' with
  | nil => exact ⟨s', by simpa using h, .nil⟩
  | append_singleton es' e ih =>
    rw [← append_assoc] at h
    obtain ⟨s₁, hrun, hs⟩ := h.snoc_inv
    obtain ⟨s, hes, hes'⟩ := ih hrun
    exact ⟨s, hes, hes'.snoc hs⟩

theorem nil_inv (h : Run step s₀ [] s) : s = s₀ := by
  generalize hes : ([] : List ε) = es at h
  cases h with
  | nil => rfl
  | snoc _ _ => simp at hes

/-- The first step of a run. -/
theorem cons_inv {e : ε} (h : Run step s₀ (e :: es) s') :
    ∃ s, step s₀ e s ∧ Run step s es s' := by
  obtain ⟨s, hfirst, hrest⟩ := (show Run step s₀ ([e] ++ es) s' from h).append_inv
  obtain ⟨s₁, hnil, hs⟩ := (show Run step s₀ ([] ++ [e]) s from hfirst).snoc_inv
  rw [hnil.nil_inv] at hs
  exact ⟨s, hs, hrest⟩

end Run

/-- The events that inputs lead to, one after the other, and the last state. -/
def replay {ι : Type*} (next : σ → ι → ε × σ) (s : σ) : List ι → List ε × σ
  | [] => ([], s)
  | i :: is => ((next s i).1 :: (replay next (next s i).2 is).1, (replay next (next s i).2 is).2)

/-- Events that can happen one after the other make a run. -/
theorem run_of_foldlM {next : σ → ε → Option σ} {s₀ s : σ} {es : List ε}
    (h : es.foldlM next s₀ = some s) : Run (fun s e s' => next s e = some s') s₀ es s := by
  induction es using List.reverseRecOn generalizing s with
  | nil => exact Option.some.inj h ▸ .nil
  | append_singleton es e ih =>
    rw [foldlM_append, bind_eq_bind, bind_eq_some_iff] at h
    obtain ⟨s₁, hes, hlast⟩ := h
    rw [foldlM_cons, bind_eq_bind, bind_eq_some_iff] at hlast
    obtain ⟨s₂, hs, hnil⟩ := hlast
    exact Option.some.inj hnil ▸ (ih hes).snoc hs

/-- Events that always happen make a run. -/
theorem run_foldl (next : σ → ε → σ) (s₀ : σ) (es : List ε) :
    Run (fun s e s' => s' = next s e) s₀ es (es.foldl next s₀) := by
  induction es using List.reverseRecOn with
  | nil => exact .nil
  | append_singleton es e ih =>
    rw [foldl_append]
    exact ih.snoc rfl

/-- Inputs that each lead to a step lead to a run. -/
theorem run_replay {ι : Type*} {next : σ → ι → ε × σ} {step : σ → ε → σ → Prop}
    (hnext : ∀ s i, step s (next s i).1 (next s i).2) (s : σ) (is : List ι) :
    Run step s (replay next s is).1 (replay next s is).2 := by
  induction is generalizing s with
  | nil => exact .nil
  | cons i is ih =>
    have hstep : Run step s [(next s i).1] (next s i).2 := Run.nil.snoc (hnext s i)
    exact hstep.append (ih _)

end Polis

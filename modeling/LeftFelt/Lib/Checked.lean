import LeftFelt.Lib.Loop

/-!
# Tables with checks

A table is a list that is read and written at indices. `load` and `store` fail outside of it, so that loops which are
made of them and succeed have stayed inside their tables. The rules say when a loop with checks does what the loop
without them does: `foldlM_eq_foldl` and `foldlM_lift` if no check fails, `foldlM_congr` if the loop may stop for another
reason as well. A loop that has come to an end has passed all checks (`step_of_foldlM`); if its states are known, that is
exactly when it comes to its end (`forLoop_eq_some_iff`).
-/

namespace LeftFelt.Lib.Checked

variable {α β σ : Type*}

/-- A read of a table. -/
def load (table : List α) (i : Nat) : Option α := table[i]?

/-- A write to a table. -/
def store (table : List α) (i : Nat) (a : α) : Option (List α) :=
  if i < table.length then some (table.set i a) else none

/-- `for (i = lo; i < hi; i++) s = f(i, s)`, where the body may fail. -/
def forLoop (lo hi : Nat) (f : Nat → σ → Option σ) (s : σ) : Option σ :=
  (List.range' lo (hi - lo)).foldlM (fun s i => f i s) s

theorem load_eq {table : List α} {i : Nat} (h : i < table.length) (d : α) : load table i = some (table.getD i d) := by
  rw [load, List.getD_eq_getElem?_getD, List.getElem?_eq_getElem h, Option.getD_some]

theorem store_eq {table : List α} {i : Nat} (h : i < table.length) (a : α) : store table i a = some (table.set i a) :=
  if_pos h

/-- Two nested loops walk the raster. -/
theorem forLoop_forLoop (x0 x1 y0 y1 : Nat) (f : Nat → Nat → σ → Option σ) (s : σ) :
    forLoop y0 y1 (fun y => forLoop x0 x1 fun x => f x y) s =
      (raster x0 x1 y0 y1).foldlM (fun s p => f p.1 p.2 s) s := by
  rw [raster, forLoop]
  induction List.range' y0 (y1 - y0) generalizing s with
  | nil => rfl
  | cons y ys ih =>
    rw [List.foldlM_cons, List.flatMap_cons, List.foldlM_append, List.foldlM_map]
    exact congrArg (Option.bind _) (funext ih)

/-- A loop whose body may fail, but does not on the way. -/
theorem foldlM_eq_some {f : σ → α → Option σ} (I : List α → σ → Prop) {l : List α} {s : σ} (h0 : I [] s)
    (hstep : ∀ pre a post s, l = pre ++ a :: post → I pre s → ∃ s', f s a = some s' ∧ I (pre ++ [a]) s') :
    ∃ s', l.foldlM f s = some s' ∧ I l s' := by
  have key : ∀ (post pre : List α) (s : σ), l = pre ++ post → I pre s → ∃ s', post.foldlM f s = some s' ∧ I l s' := by
    intro post
    induction post with
    | nil =>
      intro pre s hl hs
      rw [List.append_nil] at hl
      exact ⟨s, rfl, hl ▸ hs⟩
    | cons a post ih =>
      intro pre s hl hs
      obtain ⟨s', hf, hs'⟩ := hstep pre a post s hl hs
      obtain ⟨s'', hrun, hI⟩ := ih (pre ++ [a]) s' (by simpa using hl) hs'
      exact ⟨s'', by rw [List.foldlM_cons, hf]; exact hrun, hI⟩
  exact key l [] s rfl h0

/-- **No check fails**: then the loop does what it does without checks. -/
theorem foldlM_eq_foldl {f : σ → α → σ} {f' : σ → α → Option σ} (I : List α → σ → Prop) {l : List α} {s : σ}
    (h0 : I [] s)
    (hstep : ∀ pre a post s, l = pre ++ a :: post → I pre s → f' s a = some (f s a) ∧ I (pre ++ [a]) (f s a)) :
    l.foldlM f' s = some (l.foldl f s) := by
  have hinit : s = ([] : List α).foldl f s ∧ I [] s := ⟨rfl, h0⟩
  obtain ⟨s', hrun, hs', -⟩ := foldlM_eq_some (f := f') (fun pre s' => s' = pre.foldl f s ∧ I pre s') hinit (by
    rintro pre a post s' hl ⟨rfl, hI⟩
    obtain ⟨hf, hI'⟩ := hstep pre a post _ hl hI
    exact ⟨_, hf, by rw [List.foldl_append]; rfl, hI'⟩)
  rw [hrun, hs']

/-- **The checks change nothing**: a loop that may stop with and without them. -/
theorem foldlM_congr {f f' : σ → α → Option σ} (I : σ → Prop) {l : List α} {s : σ} (h0 : I s)
    (hstep : ∀ a ∈ l, ∀ s, I s → f' s a = f s a ∧ ∀ s', f s a = some s' → I s') :
    l.foldlM f' s = l.foldlM f s := by
  induction l generalizing s with
  | nil => rfl
  | cons a l ih =>
    obtain ⟨heq, hI⟩ := hstep a List.mem_cons_self s h0
    rw [List.foldlM_cons, List.foldlM_cons, heq]
    cases hf : f s a with
    | none => rfl
    | some s' => exact ih (hI s' hf) fun a ha => hstep a (List.mem_cons_of_mem _ ha)

/-- **A loop that simulates another one**: every step of it is the lifted step of the loop without checks. -/
theorem foldlM_lift {τ : Type*} (lift : τ → σ) {f : τ → α → τ} {f' : σ → α → Option σ} (I : τ → Prop) {l : List α}
    {t : τ} (h0 : I t) (hstep : ∀ a ∈ l, ∀ t, I t → f' (lift t) a = some (lift (f t a)) ∧ I (f t a)) :
    l.foldlM f' (lift t) = some (lift (l.foldl f t)) ∧ I (l.foldl f t) := by
  induction l generalizing t with
  | nil => exact ⟨rfl, h0⟩
  | cons a l ih =>
    obtain ⟨heq, hI⟩ := hstep a List.mem_cons_self t h0
    rw [List.foldlM_cons, heq]
    exact ih hI fun a ha => hstep a (List.mem_cons_of_mem _ ha)

/-- **A loop that has come to an end** has done the step for every element. -/
theorem step_of_foldlM {f : σ → α → Option σ} (I : σ → Prop) {l : List α} {s t : σ} (h0 : I s)
    (hstep : ∀ a s t, I s → f s a = some t → I t) (hrun : l.foldlM f s = some t) :
    I t ∧ ∀ a ∈ l, ∃ s t, I s ∧ f s a = some t := by
  induction l generalizing s with
  | nil =>
    obtain rfl := Option.some.inj hrun
    exact ⟨h0, by simp⟩
  | cons b l ih =>
    rw [List.foldlM_cons, Option.bind_eq_bind, Option.bind_eq_some_iff] at hrun
    obtain ⟨s', hfirst, hrest⟩ := hrun
    obtain ⟨hI, hall⟩ := ih (hstep b s s' h0 hfirst) hrest
    refine ⟨hI, fun a ha => ?_⟩
    rcases List.mem_cons.1 ha with rfl | ha
    · exact ⟨s, s', h0, hfirst⟩
    · exact hall a ha

/-- **When a loop comes to its end**, if its states are known: it does exactly if it passes the checks of all rounds. -/
theorem forLoop_eq_some_iff {f : Nat → σ → Option σ} (S : Nat → σ) {ok : Nat → Prop} {m : Nat}
    (hstep : ∀ n < m, ∀ s, f n (S n) = some s ↔ ok n ∧ s = S (n + 1)) (s : σ) :
    forLoop 0 m f (S 0) = some s ↔ (∀ n < m, ok n) ∧ s = S m := by
  rw [forLoop, Nat.sub_zero, ← List.range_eq_range']
  induction m generalizing s with
  | zero => simp [eq_comm]
  | succ m ih =>
    rw [List.range_succ, List.foldlM_append, Option.bind_eq_bind, Option.bind_eq_some_iff]
    simp only [List.foldlM_cons, List.foldlM_nil, bind_pure, ih fun n hn => hstep n (by omega)]
    constructor
    · rintro ⟨_, ⟨hok, rfl⟩, hs⟩
      obtain ⟨hm, hs⟩ := (hstep m m.lt_succ_self s).1 hs
      refine ⟨fun n hn => ?_, hs⟩
      rcases Nat.lt_succ_iff_lt_or_eq.1 hn with hn | rfl
      · exact hok n hn
      · exact hm
    · rintro ⟨hok, hs⟩
      exact ⟨S m, ⟨fun n hn => hok n (by omega), rfl⟩, (hstep m m.lt_succ_self s).2 ⟨hok m m.lt_succ_self, hs⟩⟩

/-- Every entry of a list passes its check. -/
theorem mapM_eq_map {f : α → β} {f' : α → Option β} {l : List α} (h : ∀ a ∈ l, f' a = some (f a)) :
    l.mapM f' = some (l.map f) := by
  induction l with
  | nil => rfl
  | cons a l ih =>
    rw [List.mapM_cons, h a List.mem_cons_self, ih fun a ha => h a (List.mem_cons_of_mem _ ha)]
    rfl

end LeftFelt.Lib.Checked

import Mathlib.Data.List.Basic
import Mathlib.Data.List.ProdSigma
import Mathlib.Data.List.Range

/-!
# Counting loops and raster scans

`forLoop lo hi f s` is the loop `for (i = lo; i < hi; i++) s = f(i, s)`. Two nested ones walk the coordinates of a
rectangle row by row; `forLoop_forLoop` turns them into one fold over the list `raster`, so that the rule
`foldl_scan` (an invariant indexed by the part already walked) serves every scan. `foldl_scan_all` is the same rule
when the part already walked does not matter.

A two-dimensional buffer is one list, indexed by `x + y * w` (`index_lt`, `index_inj`, `getD_set`, `foldl_set`), and the
raster of all its coordinates goes through it from the beginning to the end (`raster_index`, `foldl_modify`).
-/

namespace LeftFelt.Lib

variable {α β σ : Type*}

/-! ## Loops -/

/-- `for (i = lo; i < hi; i++) s = f(i, s)`. -/
def forLoop (lo hi : Nat) (f : Nat → σ → σ) (s : σ) : σ :=
  (List.range' lo (hi - lo)).foldl (fun s i => f i s) s

/-- A loop whose body does not look at the counter iterates it. -/
theorem forLoop_const (n : Nat) (f : σ → σ) (s : σ) : forLoop 0 n (fun _ => f) s = f^[n] s := by
  rw [forLoop, Nat.sub_zero]
  suffices ∀ (l : List Nat) (s : σ), l.foldl (fun s _ => f s) s = f^[l.length] s by
    rw [this, List.length_range']
  intro l
  induction l with
  | nil => exact fun _ => rfl
  | cons a l ih => exact fun s => ih (f s)

/-- The coordinates of the rectangle `[x0, x1) × [y0, y1)`, row by row. -/
def raster (x0 x1 y0 y1 : Nat) : List (Nat × Nat) :=
  (List.range' y0 (y1 - y0)).flatMap fun y => (List.range' x0 (x1 - x0)).map fun x => (x, y)

/-- Two nested loops walk the raster. -/
theorem forLoop_forLoop (x0 x1 y0 y1 : Nat) (f : Nat → Nat → σ → σ) (s : σ) :
    forLoop y0 y1 (fun y => forLoop x0 x1 fun x => f x y) s =
      (raster x0 x1 y0 y1).foldl (fun s p => f p.1 p.2 s) s := by
  simp only [forLoop, raster, List.foldl_flatMap, List.foldl_map]

/-! ## Invariants of folds -/

/-- **The scan rule**: an invariant indexed by the part of the list already walked. -/
theorem foldl_scan {f : σ → α → σ} (I : List α → σ → Prop) {l : List α} {s : σ} (h0 : I [] s)
    (hstep : ∀ pre a post s, l = pre ++ a :: post → I pre s → I (pre ++ [a]) (f s a)) : I l (l.foldl f s) := by
  have key : ∀ (post pre : List α) (s : σ), l = pre ++ post → I pre s → I l (post.foldl f s) := by
    intro post
    induction post with
    | nil =>
      intro pre s hl hs
      rw [List.append_nil] at hl
      rw [hl]; exact hs
    | cons a post ih =>
      intro pre s hl hs
      exact ih (pre ++ [a]) (f s a) (by simpa using hl) (hstep pre a post s hl hs)
  exact key l [] s rfl h0

/-- The scan rule for an invariant that does not look at the part already walked. -/
theorem foldl_scan_all {f : σ → α → σ} (I : σ → Prop) {l : List α} {s : σ} (h0 : I s)
    (hstep : ∀ a s, a ∈ l → I s → I (f s a)) : I (l.foldl f s) :=
  foldl_scan (fun _ => I) h0 fun _ a _ s hl hs => hstep a s (by simp [hl]) hs

/-- A counter that a step leaves alone or raises is positive in the end if it was raised somewhere. -/
theorem foldl_ne_zero {f : Nat → α → Nat} {c : α → Prop} (hf : ∀ n a, f n a ≠ 0 ↔ n ≠ 0 ∨ c a) (l : List α) (n : Nat) :
    l.foldl f n ≠ 0 ↔ n ≠ 0 ∨ ∃ a ∈ l, c a := by
  induction l generalizing n with
  | nil => simp
  | cons a l ih => rw [List.foldl_cons, ih, hf, or_assoc, List.exists_mem_cons_iff]

/-- Where a counting loop is. -/
theorem range_split {n a : Nat} {pre post : List Nat} (h : List.range n = pre ++ a :: post) :
    pre.length = a ∧ a < n := by
  have hlen := congrArg List.length h
  rw [List.length_range, List.length_append, List.length_cons] at hlen
  have hget := congrArg (fun l => l[pre.length]?) h
  simp only [List.getElem?_append_right (Nat.le_refl _), Nat.sub_self, List.getElem?_cons_zero,
    List.getElem?_range (show pre.length < n by omega), Option.some.injEq] at hget
  exact ⟨hget, by omega⟩

/-! ## The raster -/

@[simp]
theorem mem_raster {x0 x1 y0 y1 : Nat} {p : Nat × Nat} :
    p ∈ raster x0 x1 y0 y1 ↔ (x0 ≤ p.1 ∧ p.1 < x1) ∧ y0 ≤ p.2 ∧ p.2 < y1 := by
  obtain ⟨x, y⟩ := p
  simp only [raster, List.mem_flatMap, List.mem_map, List.mem_range'_1, Prod.mk.injEq]
  constructor
  · rintro ⟨b, hb, a, ha, rfl, rfl⟩
    omega
  · rintro ⟨hx, hy⟩
    exact ⟨y, by omega, x, by omega, rfl, rfl⟩

/-- The raster order: by row, and by column inside a row. -/
def RasterLt (p q : Nat × Nat) : Prop := p.2 < q.2 ∨ p.2 = q.2 ∧ p.1 < q.1

instance (p q : Nat × Nat) : Decidable (RasterLt p q) := inferInstanceAs (Decidable (_ ∨ _))

theorem RasterLt.trans {p q r : Nat × Nat} (h₁ : RasterLt p q) (h₂ : RasterLt q r) : RasterLt p r := by
  unfold RasterLt at *
  omega

theorem RasterLt.irrefl (p : Nat × Nat) : ¬RasterLt p p := by
  unfold RasterLt
  omega

/-- The raster lists its coordinates in raster order. -/
theorem raster_pairwise (x0 x1 y0 y1 : Nat) : (raster x0 x1 y0 y1).Pairwise RasterLt := by
  unfold raster
  rw [List.pairwise_flatMap]
  refine ⟨fun y _ => ?_, ?_⟩
  · rw [List.pairwise_map]
    exact (List.pairwise_lt_range' (s := x0) (n := x1 - x0)).imp fun h => Or.inr ⟨rfl, h⟩
  · refine (List.pairwise_lt_range' (s := y0) (n := y1 - y0)).imp fun h p hp q hq => Or.inl ?_
    simp only [List.mem_map] at hp hq
    obtain ⟨_, _, rfl⟩ := hp
    obtain ⟨_, _, rfl⟩ := hq
    exact h

theorem raster_nodup (x0 x1 y0 y1 : Nat) : (raster x0 x1 y0 y1).Nodup := by
  rw [List.nodup_iff_pairwise_ne]
  refine (raster_pairwise x0 x1 y0 y1).imp fun {p q} h e => ?_
  rw [e] at h
  exact RasterLt.irrefl q h

/-! ## Row-major buffers -/

/-- The index of a coordinate of a `w × h` grid. -/
theorem index_lt {w h : Nat} {p : Nat × Nat} (hx : p.1 < w) (hy : p.2 < h) : p.1 + p.2 * w < w * h := by
  have hm := Nat.mul_le_mul_right w (Nat.succ_le_of_lt hy)
  rw [Nat.succ_mul, Nat.mul_comm h] at hm
  omega

/-- Different coordinates have different indices. -/
theorem index_inj {w : Nat} {p q : Nat × Nat} (hp : p.1 < w) (hq : q.1 < w) (h : p.1 + p.2 * w = q.1 + q.2 * w) :
    p = q := by
  have hw : 0 < w := by omega
  have h₁ := congrArg (· % w) h
  have h₂ := congrArg (· / w) h
  simp only [Nat.add_mul_mod_self_right, Nat.mod_eq_of_lt hp, Nat.mod_eq_of_lt hq] at h₁
  simp only [Nat.add_mul_div_right _ _ hw, Nat.div_eq_of_lt hp, Nat.div_eq_of_lt hq, Nat.zero_add] at h₂
  exact Prod.ext h₁ h₂

/-- Buffers with the same entries at all coordinates. -/
theorem eq_of_getD {w h : Nat} {b b' : List α} (d : α) (hlen : b.length = w * h) (hlen' : b'.length = w * h)
    (heq : ∀ p : Nat × Nat, p.1 < w → p.2 < h → b.getD (p.1 + p.2 * w) d = b'.getD (p.1 + p.2 * w) d) : b = b' := by
  refine List.ext_getElem (hlen.trans hlen'.symm) fun i hi hi' => ?_
  have hw : 0 < w := Nat.pos_of_ne_zero (by rintro rfl; omega)
  have hentry := heq (i % w, i / w) (Nat.mod_lt i hw) (by rw [Nat.div_lt_iff_lt_mul hw, Nat.mul_comm]; omega)
  simpa [Nat.mod_add_div', hi, hi'] using hentry

/-- Reading a buffer after one write. -/
theorem getD_set {w h : Nat} {p q : Nat × Nat} {b : List α} (hlen : w * h ≤ b.length) (hp : p.1 < w ∧ p.2 < h)
    (hq : q.1 < w) (v d : α) :
    (b.set (p.1 + p.2 * w) v).getD (q.1 + q.2 * w) d = if q = p then v else b.getD (q.1 + q.2 * w) d := by
  have hlt := (index_lt hp.1 hp.2).trans_le hlen
  simp only [List.getD_eq_getElem?_getD, List.getElem?_set]
  by_cases hqp : q = p
  · rw [hqp, if_pos rfl, if_pos hlt, if_pos rfl]
    rfl
  · rw [if_neg fun e => hqp (index_inj hp.1 hq e).symm, if_neg hqp]

/-- **A scan that fills a buffer**: the entry of every coordinate walked over is the value written there. -/
theorem foldl_set {w h : Nat} {l : List (Nat × Nat)} {b : List α} (v : Nat × Nat → α) (d : α)
    (hl : ∀ p ∈ l, p.1 < w ∧ p.2 < h) (hlen : w * h ≤ b.length) {q : Nat × Nat} (hq : q ∈ l) :
    (l.foldl (fun b p => b.set (p.1 + p.2 * w) (v p)) b).getD (q.1 + q.2 * w) d = v q := by
  have key := foldl_scan (f := fun b p => b.set (p.1 + p.2 * w) (v p)) (l := l) (s := b)
    (fun pre b => w * h ≤ b.length ∧ ∀ q ∈ pre, b.getD (q.1 + q.2 * w) d = v q) ⟨hlen, by simp⟩ ?_
  · exact key.2 q hq
  rintro pre p post t hpre ⟨hlt, ht⟩
  have hp := hl p (by simp [hpre])
  refine ⟨by rwa [List.length_set], fun q hq => ?_⟩
  have hql : q ∈ l := by
    rw [hpre]
    rcases List.mem_append.1 hq with h | h
    · exact List.mem_append_left _ h
    · exact List.mem_append_right _ (by rw [List.mem_singleton.1 h]; exact List.mem_cons_self)
  rw [getD_set hlt hp (hl q hql).1]
  split
  · rename_i hqp; rw [hqp]
  · rename_i hqp
    exact ht q ((List.mem_append.1 hq).resolve_right fun h => hqp (List.mem_singleton.1 h))

/-- The raster walks a row-major buffer from its beginning to its end. -/
theorem raster_index (w h : Nat) : (raster 0 w 0 h).map (fun p => p.1 + p.2 * w) = List.range (w * h) := by
  induction h with
  | zero => simp [raster]
  | succ h ih =>
    have hrows : raster 0 w 0 (h + 1) = raster 0 w 0 h ++ (List.range w).map fun x => (x, h) := by
      simp [raster, ← List.range_eq_range', List.range_succ]
    rw [hrows, List.map_append, ih, Nat.mul_succ, List.range_add, List.map_map]
    congr 1
    exact List.map_congr_left fun x _ => by rw [Function.comp_apply, Nat.add_comm, Nat.mul_comm]

/-- **A scan that changes every entry once**, each in its own way. -/
theorem getElem?_foldl_modify (g : Nat → α → α) (b : List α) (n k : Nat) :
    ((List.range n).foldl (fun b k => b.modify k (g k)) b)[k]? = if k < n then b[k]?.map (g k) else b[k]? := by
  induction n with
  | zero => rfl
  | succ n ih =>
    rw [List.range_succ, List.foldl_append, List.foldl_cons, List.foldl_nil, List.getElem?_modify, ih]
    by_cases hkn : n = k
    · subst hkn
      simp
    · have hlt : k < n + 1 ↔ k < n := by omega
      simp [hkn, hlt]

/-- A scan that changes every entry in the same way. -/
theorem foldl_modify (g : α → α) (b : List α) : (List.range b.length).foldl (fun b k => b.modify k g) b = b.map g := by
  refine List.ext_getElem? fun k => ?_
  rw [getElem?_foldl_modify (fun _ => g), List.getElem?_map]
  split
  · rfl
  · rename_i hk
    rw [List.getElem?_eq_none (Nat.le_of_not_lt hk)]
    rfl

end LeftFelt.Lib

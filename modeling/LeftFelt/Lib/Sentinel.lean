import LeftFelt.Lib.Loop
import Mathlib.Order.Bounds.Basic

/-!
# Running extrema with a sentinel

A loop that keeps the greatest value so far may mark by a value `e` that there is none yet. If `e` is a value like the
others, the loop forgets what it has seen whenever it has reached `e`. It still ends with the greatest value, unless that
is `e` and something comes after it (`foldl_raise_iff`). The same holds for the least value (`foldl_lower_iff`).
-/

namespace LeftFelt.Lib.Sentinel

variable {K : Type*} [LinearOrder K]

/-- `if (a > s || s == e) s = a`. -/
def raise (e s a : K) : K := if a > s ∨ s = e then a else s

/-- `if (a < s || s == e) s = a`. -/
def lower (e s a : K) : K := if a < s ∨ s = e then a else s

variable {e s a : K} {pre l : List K}

/-- A step that ends at the sentinel has just read it. -/
theorem eq_of_raise_eq (h : raise e s a = e) : a = e := by
  unfold raise at h
  split_ifs at h with hs
  · exact h
  · exact absurd (.inr h) hs

theorem raise_sentinel (h : s ≤ e) : raise e s e = e :=
  if_pos (h.lt_or_eq.imp id id)

/-- What the loop keeps of the values it has seen: the greatest, or else a smaller one than the sentinel, which is the
greatest. -/
structure Kept (e : K) (pre : List K) (s : K) : Prop where
  mem : s ∈ pre
  greatest : (∀ b ∈ pre, b ≤ s) ∨ (IsGreatest {b | b ∈ pre} e ∧ s ≠ e)

theorem Kept.first (e a : K) : Kept e [a] (raise e e a) := by
  have hraise : raise e e a = a := if_pos (.inr rfl)
  rw [hraise]
  exact ⟨List.mem_singleton_self a, .inl fun b hb => (List.mem_singleton.1 hb).le⟩

theorem Kept.step (h : Kept e pre s) (a : K) : Kept e (pre ++ [a]) (raise e s a) := by
  have hforall : ∀ {c : K}, (∀ b ∈ pre, b ≤ c) → a ≤ c → ∀ b ∈ pre ++ [a], b ≤ c := fun hpre ha b hb =>
    (List.mem_append.1 hb).elim (hpre b) fun hb => (List.mem_singleton.1 hb).trans_le ha
  have hlast : a ∈ pre ++ [a] := by simp
  unfold raise
  rcases h.greatest with hall | ⟨⟨hmem, hub⟩, hne⟩
  · by_cases ha : a > s
    · rw [if_pos (.inl ha)]
      exact ⟨hlast, .inl (hforall (fun b hb => (hall b hb).trans ha.le) le_rfl)⟩
    by_cases hs : s = e
    · -- the greatest value is taken for none
      rw [if_pos (.inr hs)]
      refine ⟨hlast, ?_⟩
      have hae : a ≤ e := hs ▸ not_lt.1 ha
      rcases hae.lt_or_eq with hlt | rfl
      · exact .inr ⟨⟨List.mem_append_left _ (hs ▸ h.mem), hforall (hs ▸ hall) hae⟩, hlt.ne⟩
      · exact .inl (hforall (hs ▸ hall) le_rfl)
    · rw [if_neg (not_or.2 ⟨ha, hs⟩)]
      exact ⟨List.mem_append_left _ h.mem, .inl (hforall hall (not_lt.1 ha))⟩
  · by_cases ha : a > s
    · rw [if_pos (.inl ha)]
      refine ⟨hlast, ?_⟩
      rcases lt_or_ge a e with hlt | hge
      · exact .inr ⟨⟨List.mem_append_left _ hmem, hforall hub hlt.le⟩, hlt.ne⟩
      · exact .inl (hforall (fun b hb => (hub hb).trans hge) le_rfl)
    · rw [if_neg (not_or.2 ⟨ha, hne⟩)]
      have hse : s ≤ e := hub h.mem
      exact ⟨List.mem_append_left _ h.mem,
        .inr ⟨⟨List.mem_append_left _ hmem, hforall hub ((not_lt.1 ha).trans hse)⟩, hne⟩⟩

theorem kept_foldl (hl : l ≠ []) : Kept e l (l.foldl (raise e) e) := by
  have hscan := foldl_scan (f := raise e) (l := l) (s := e)
    (fun pre s => (pre = [] ∧ s = e) ∨ Kept e pre s) (.inl ⟨rfl, rfl⟩) fun pre a _ s _ hs => by
      rcases hs with ⟨rfl, rfl⟩ | hs
      · exact .inr (Kept.first s a)
      · exact .inr (hs.step a)
  exact hscan.resolve_left fun h => hl h.1

/-- **When the loop ends with the greatest value**: if the sentinel is the greatest, it is the last, too. -/
theorem foldl_raise_iff (hl : l ≠ []) :
    IsGreatest {a | a ∈ l} (l.foldl (raise e) e) ↔ (IsGreatest {a | a ∈ l} e → l.getLast? = some e) := by
  obtain ⟨pre, a, rfl⟩ : ∃ pre a, l = pre ++ [a] := ⟨_, _, (List.dropLast_append_getLast hl).symm⟩
  have hkept := kept_foldl (e := e) hl
  rw [List.getLast?_concat, Option.some.injEq]
  rw [List.foldl_concat] at hkept ⊢
  constructor
  · intro h he
    exact eq_of_raise_eq (h.unique he)
  · intro h
    rcases hkept.greatest with hall | ⟨he, hne⟩
    · exact ⟨hkept.mem, hall⟩
    · -- the sentinel has been read last, so that the loop has ended with it
      refine absurd ?_ hne
      have hpre : pre.foldl (raise e) e ≤ e := by
        by_cases hnil : pre = []
        · rw [hnil]
          exact le_rfl
        · exact he.2 (List.mem_append_left _ (kept_foldl hnil).mem)
      rw [h he]
      exact raise_sentinel hpre

/-- **When the loop ends with the least value.** -/
theorem foldl_lower_iff (hl : l ≠ []) :
    IsLeast {a | a ∈ l} (l.foldl (lower e) e) ↔ (IsLeast {a | a ∈ l} e → l.getLast? = some e) :=
  foldl_raise_iff (K := Kᵒᵈ) hl

end LeftFelt.Lib.Sentinel

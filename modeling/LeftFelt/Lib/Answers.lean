import Mathlib.Data.List.Basic

/-!
# Machines that answer

A machine takes one call after the other, and answers each. If two machines answer alike in related states, and stay in
related states, they answer alike for good (`answers_eq`).
-/

namespace LeftFelt.Lib.Answers

variable {C S T O : Type*}

/-- The state after the calls, and the answers. -/
def answers (call : C → S → S × O) : List C → S → S × List O
  | [], s => (s, [])
  | c :: cs, s =>
    let r := call c s
    let rest := answers call cs r.1
    (rest.1, r.2 :: rest.2)

/-- **Related machines answer alike.** -/
theorem answers_eq {f : C → S → S × O} {g : C → T → T × O} {R : S → T → Prop} {cs : List C}
    (hcall : ∀ c ∈ cs, ∀ s t, R s t → (f c s).2 = (g c t).2 ∧ R (f c s).1 (g c t).1) {s : S} {t : T} (h : R s t) :
    (answers f cs s).2 = (answers g cs t).2 ∧ R (answers f cs s).1 (answers g cs t).1 := by
  induction cs generalizing s t with
  | nil => exact ⟨rfl, h⟩
  | cons c cs ih =>
    obtain ⟨houtput, hnext⟩ := hcall c List.mem_cons_self s t h
    obtain ⟨hrest, hlast⟩ := ih (fun c' hc' => hcall c' (List.mem_cons_of_mem _ hc')) hnext
    exact ⟨by rw [answers, answers, houtput, hrest], hlast⟩

end LeftFelt.Lib.Answers

import Mathlib.Tactic

/-!
# Computations with fuel

A loop whose end is not known in advance takes fuel, and running out of it is an error. `Mono f`: more
fuel does not change a result. `Halts f a`: with enough fuel the result is `a`.
-/

namespace Fuel

universe u

variable {ε ι : Type*} {α β : Type u} {f : Nat → Except ε α} {g : α → Nat → Except ε β} {a a' : α} {b : β}

theorem bind_eq_ok {x : Except ε α} {f : α → Except ε β} : x >>= f = .ok b ↔ ∃ a, x = .ok a ∧ f a = .ok b := by
  cases x <;> simp [bind, Except.bind]

def Mono (f : Nat → Except ε α) : Prop := ∀ ⦃n m a⦄, n ≤ m → f n = .ok a → f m = .ok a

def Halts (f : Nat → Except ε α) (a : α) : Prop := ∃ n, f n = .ok a

theorem Mono.const (x : Except ε α) : Mono fun _ => x := fun _ _ _ _ hx => hx

theorem Mono.of_succ (hf : ∀ n a, f n = .ok a → f (n + 1) = .ok a) : Mono f := by
  intro n m a hnm hn
  induction hnm with
  | refl => exact hn
  | step _ ih => exact hf _ _ ih

theorem Mono.bind (hf : Mono f) (hg : ∀ a, Mono (g a)) : Mono fun n => f n >>= fun a => g a n := by
  intro n m b hnm hn
  obtain ⟨a, hx, hn⟩ := bind_eq_ok.1 hn
  exact bind_eq_ok.2 ⟨a, hf hnm hx, hg a hnm hn⟩

theorem halts_const {x : Except ε α} : Halts (fun _ => x) a ↔ x = .ok a := ⟨fun ⟨_, h⟩ => h, fun h => ⟨0, h⟩⟩

theorem mapError_eq_ok {ε' : Type*} {x : Except ε α} {h : ε → ε'} : x.mapError h = .ok a ↔ x = .ok a := by
  cases x <;> simp [Except.mapError]

theorem Mono.mapError {ε' : Type*} (hf : Mono f) (h : ε → ε') : Mono fun n => (f n).mapError h :=
  fun _ _ _ hnm hn => mapError_eq_ok.2 (hf hnm (mapError_eq_ok.1 hn))

theorem halts_mapError {ε' : Type*} {h : ε → ε'} : Halts (fun n => (f n).mapError h) a ↔ Halts f a :=
  exists_congr fun _ => mapError_eq_ok

theorem halts_succ {e : ε} (h0 : f 0 = .error e) : Halts f a ↔ Halts (fun n => f (n + 1)) a := by
  constructor
  · rintro ⟨_ | n, hn⟩
    · rw [h0] at hn
      cases hn
    · exact ⟨n, hn⟩
  · rintro ⟨n, hn⟩
    exact ⟨n + 1, hn⟩

theorem Halts.unique (hf : Mono f) (h : Halts f a) (h' : Halts f a') : a = a' := by
  obtain ⟨n, hn⟩ := h
  obtain ⟨m, hm⟩ := h'
  exact Except.ok.inj ((hf (le_max_left n m) hn).symm.trans (hf (le_max_right n m) hm))

/-- **The sequence rule.** -/
theorem halts_bind (hf : Mono f) (hg : ∀ a, Mono (g a)) :
    Halts (fun n => f n >>= fun a => g a n) b ↔ ∃ a, Halts f a ∧ Halts (g a) b := by
  constructor
  · rintro ⟨n, hn⟩
    obtain ⟨a, hx, hn⟩ := bind_eq_ok.1 hn
    exact ⟨a, ⟨n, hx⟩, n, hn⟩
  · rintro ⟨a, ⟨n, hn⟩, m, hm⟩
    exact ⟨max n m, bind_eq_ok.2 ⟨a, hf (le_max_left n m) hn, hg a (le_max_right n m) hm⟩⟩

theorem halts_seq {f g : Nat → Except ε PUnit.{u + 1}} (hf : Mono f) (hg : Mono g) :
    Halts (fun n => f n >>= fun _ => g n) ⟨⟩ ↔ Halts f ⟨⟩ ∧ Halts g ⟨⟩ :=
  (halts_bind hf fun _ => hg).trans ⟨fun ⟨_, h1, h2⟩ => ⟨h1, h2⟩, fun ⟨h1, h2⟩ => ⟨⟨⟩, h1, h2⟩⟩

section ForM
variable {body : ι → Nat → Except ε PUnit.{u + 1}} {l : List ι}

theorem Mono.forM (hb : ∀ i, Mono (body i)) (l : List ι) : Mono fun n => l.forM fun i => body i n := by
  induction l with
  | nil => exact .const _
  | cons i l ih => exact Mono.bind (hb i) fun _ => ih

/-- **The rule for a bounded loop.** -/
theorem halts_forM (hb : ∀ i, Mono (body i)) :
    Halts (fun n => l.forM fun i => body i n) ⟨⟩ ↔ ∀ i ∈ l, Halts (body i) ⟨⟩ := by
  induction l with
  | nil => exact iff_of_true ⟨0, rfl⟩ (by simp)
  | cons i l ih =>
    rw [List.forall_mem_cons, ← ih]
    exact halts_seq (hb i) (Mono.forM hb l)

end ForM

end Fuel

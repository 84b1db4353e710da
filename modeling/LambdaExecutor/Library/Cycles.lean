import Mathlib.Data.Finite.Defs
import Mathlib.Data.Set.Finite.Basic
import Mathlib.Logic.Relation
import Mathlib.Order.WellFounded

/-!
# Descents that come to an end

`Stops r a` says that no way along `r` from `a` goes on for ever. Where only finitely
many elements are in reach, this means that none of them is in a cycle.
-/

namespace Cycles

open Relation

variable {α : Type*} {r : α → α → Prop} {a b : α}

def Stops (r : α → α → Prop) (a : α) : Prop := Acc (Function.swap r) a

def InReach (r : α → α → Prop) (a : α) : Set α := {b | ReflTransGen r a b}

/-- No element in reach can be reached from itself. -/
def NoCycle (r : α → α → Prop) (a : α) : Prop := ∀ b ∈ InReach r a, ¬ TransGen r b b

/-- Some way from the element has `n` steps. -/
def HasWay (r : α → α → Prop) : Nat → α → Prop
  | 0, _ => True
  | n + 1, a => ∃ b, r a b ∧ HasWay r n b

def HasWayTo (r : α → α → Prop) (P : α → Prop) : Nat → α → Prop
  | 0, a => P a
  | n + 1, a => ∃ b, r a b ∧ HasWayTo r P n b

theorem HasWayTo.hasWay {P : α → Prop} {n : Nat} (h : HasWayTo r P n a) : HasWay r n a := by
  induction n generalizing a with
  | zero => trivial
  | succ n ih =>
    obtain ⟨b, hr, hway⟩ := h
    exact ⟨b, hr, ih hway⟩

theorem HasWay.le_measure (μ : α → Nat) (hμ : ∀ {a b}, r a b → μ b < μ a) {n : Nat}
    (h : HasWay r n a) : n ≤ μ a := by
  induction n generalizing a with
  | zero => exact Nat.zero_le _
  | succ n ih =>
    obtain ⟨b, hr, hway⟩ := h
    exact Nat.lt_of_le_of_lt (ih hway) (hμ hr)

theorem forall_inReach_iff {P : α → Prop} :
    (∀ b ∈ InReach r a, P b) ↔ P a ∧ ∀ b, r a b → ∀ c ∈ InReach r b, P c := by
  constructor
  · exact fun h => ⟨h a .refl, fun b hr c hc => h c (.head hr hc)⟩
  · rintro ⟨ha, hnext⟩ b hb
    obtain rfl | ⟨c, hr, hc⟩ := ReflTransGen.cases_head hb
    · exact ha
    · exact hnext c hr b hc

theorem Stops.of_forall (h : ∀ b, r a b → Stops r b) : Stops r a := Acc.intro a h

theorem Stops.next (h : Stops r a) (hr : r a b) : Stops r b := h.inv hr

theorem Stops.not_transGen (h : Stops r a) : ¬ TransGen r a a := by
  induction h with
  | intro a _ ih =>
    intro hcycle
    obtain ⟨b, hab, hba⟩ := (TransGen.head'_iff).mp hcycle
    exact ih b hab (TransGen.tail' hba hab)

theorem Stops.of_inReach (h : Stops r a) (hb : b ∈ InReach r a) : Stops r b := by
  induction hb with
  | refl => exact h
  | tail _ hr ih => exact ih.next hr

theorem stops_iff_noCycle (hfinite : (InReach r a).Finite) : Stops r a ↔ NoCycle r a := by
  constructor
  · exact fun h b hb => (h.of_inReach hb).not_transGen
  · intro h
    -- The elements in reach are well-founded under the transitive closure.
    have : Finite (InReach r a) := hfinite
    let later (x y : InReach r a) : Prop := TransGen r y.1 x.1
    have : IsTrans (InReach r a) later := ⟨fun _ _ _ hxy hyz => hyz.trans hxy⟩
    have : Std.Irrefl later := ⟨fun x => h x.1 x.2⟩
    have hwf : WellFounded later := Finite.wellFounded_of_trans_of_irrefl later
    have hstops : ∀ x : InReach r a, Stops r x.1 := by
      intro x
      induction x using hwf.induction with
      | _ x ih => exact .of_forall fun b hb => ih ⟨b, x.2.tail hb⟩ (.single hb)
    exact hstops ⟨a, .refl⟩

end Cycles

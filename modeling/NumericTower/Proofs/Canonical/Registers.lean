import NumericTower.Registers
import NumericTower.Proofs.Canonical.Reachable
/-!
# What programs come by

A program composes the tower's operations, one with each step, so all that it
stores and all that it answers is reachable. A step does one of two things
(`Step.run_cases`), and one that fails leaves the registers alone. Either
way they stay sound (`Registers.Sound.run`), and so they are after every
program (`Registers.sound_after`): no register ever holds a bignum that a word
would hold.
-/

namespace NumericTower

namespace Registers

variable {registers : Registers} {name : String} {n : Number}

/-! ## Names -/

theorem lookup_cons_eq_ite (name other : String) (n : Number) (rest : List (String × Number)) :
    ((name, n) :: rest).lookup other = if other = name then some n else rest.lookup other := by
  rw [List.lookup_cons]
  by_cases h : other = name
  · rw [if_pos h, beq_iff_eq.2 h]
  · rw [if_neg h, beq_false_of_ne h]

theorem lookup_setEntry (name other : String) (n : Number) (entries : List (String × Number)) :
    (setEntry name n entries).lookup other =
      if other = name then some n else entries.lookup other := by
  induction entries with
  | nil => exact lookup_cons_eq_ite name other n []
  | cons entry rest ih =>
    obtain ⟨key, old⟩ := entry
    rw [setEntry]
    by_cases hkey : key = name
    · subst hkey
      rw [if_pos rfl, lookup_cons_eq_ite, lookup_cons_eq_ite]
      split <;> rfl
    · rw [if_neg hkey, lookup_cons_eq_ite, lookup_cons_eq_ite, ih]
      by_cases hother : other = name
      · rw [if_pos hother, if_neg fun h => hkey (h.symm.trans hother), if_pos hother]
      · rw [if_neg hother, if_neg hother]

/-- A register holds what was put into it last, and the others keep what
they hold. -/
theorem get?_set (registers : Registers) (name other : String) (n : Number) :
    (registers.set name n).get? other = if other = name then some n else registers.get? other :=
  lookup_setEntry name other n registers.entries

theorem mem_setEntry {entries : List (String × Number)} {entry : String × Number}
    (h : entry ∈ setEntry name n entries) : entry = (name, n) ∨ entry ∈ entries := by
  induction entries with
  | nil => exact .inl (List.mem_singleton.1 h)
  | cons first rest ih =>
    rw [setEntry] at h
    split at h
    · exact (List.mem_cons.1 h).imp_right (List.mem_cons_of_mem _)
    · rcases List.mem_cons.1 h with rfl | hrest
      · exact .inr List.mem_cons_self
      · exact (ih hrest).imp_right (List.mem_cons_of_mem _)

theorem nodup_setEntry {entries : List (String × Number)}
    (h : (entries.map Prod.fst).Nodup) : ((setEntry name n entries).map Prod.fst).Nodup := by
  induction entries with
  | nil => exact List.nodup_singleton name
  | cons entry rest ih =>
    obtain ⟨key, old⟩ := entry
    obtain ⟨hkey, hrest⟩ := List.nodup_cons.1 h
    rw [setEntry]
    split
    · rename_i heq
      exact heq ▸ h
    · rename_i hne
      refine List.nodup_cons.2 ⟨fun hmem => ?_, ih hrest⟩
      obtain ⟨entry, hentry, rfl⟩ := List.mem_map.1 hmem
      rcases mem_setEntry hentry with rfl | hold
      · exact hne rfl
      · exact hkey (List.mem_map.2 ⟨entry, hold, rfl⟩)

theorem mem_of_get? (h : registers.get? name = some n) : (name, n) ∈ registers.entries := by
  obtain ⟨before, after, hentries, -⟩ := List.lookup_eq_some_iff.1 h
  rw [hentries]
  exact List.mem_append_right before List.mem_cons_self

theorem lookup_of_mem {entries : List (String × Number)} (h : (entries.map Prod.fst).Nodup)
    (hmem : (name, n) ∈ entries) : entries.lookup name = some n := by
  induction entries with
  | nil => cases hmem
  | cons entry rest ih =>
    obtain ⟨key, old⟩ := entry
    obtain ⟨hkey, hrest⟩ := List.nodup_cons.1 h
    rw [lookup_cons_eq_ite]
    rcases List.mem_cons.1 hmem with heq | hin
    · obtain ⟨rfl, rfl⟩ := Prod.mk.inj heq
      exact if_pos rfl
    · have hne : name ≠ key := by
        rintro rfl
        exact hkey (List.mem_map.2 ⟨_, hin, rfl⟩)
      rw [if_neg hne, ih hrest hin]

/-! ## Soundness -/

/-- Every number that is held is reachable, and every name stands once. -/
structure Sound (registers : Registers) : Prop where
  reachable : ∀ entry ∈ registers.entries, Reachable entry.2
  nodup : (registers.entries.map Prod.fst).Nodup

theorem sound_empty : Registers.empty.Sound := ⟨nofun, List.nodup_nil⟩

theorem Sound.set (h : registers.Sound) (name : String) (hn : Reachable n) :
    (registers.set name n).Sound where
  reachable entry hentry := by
    rcases mem_setEntry hentry with rfl | hold
    · exact hn
    · exact h.reachable entry hold
  nodup := nodup_setEntry h.nodup

/-- The entries are just what the names stand for. -/
theorem Sound.get?_eq_some_iff (h : registers.Sound) :
    registers.get? name = some n ↔ (name, n) ∈ registers.entries :=
  ⟨mem_of_get?, lookup_of_mem h.nodup⟩

end Registers

/-- The numbers in a fault are reachable. -/
def StepFault.Sound : StepFault → Prop
  | .numeric e => ∀ n ∈ e.numbers, Reachable n
  | _ => True

/-- The numbers in an answer are reachable. -/
def StepAnswer.Sound : StepAnswer → Prop
  | .number n => Reachable n
  | .compared a b => Reachable a ∧ Reachable b

/-- What comes out is as described, or the fault is sound. -/
def Yields {α : Type} (P : α → Prop) : Except StepFault α → Prop
  | .ok v => P v
  | .error fault => fault.Sound

theorem Yields.bind {α β : Type} {P : α → Prop} {Q : β → Prop} {x : Except StepFault α}
    {f : α → Except StepFault β} (hx : Yields P x) (hf : ∀ v, P v → Yields Q (f v)) :
    Yields Q (x >>= f) := by
  cases x with
  | ok v => exact hf v hx
  | error fault => exact hx

theorem yields_ofOutcome {r : Outcome} (h : ∀ n ∈ r.numbers, Reachable n) :
    Yields StepAnswer.Sound (StepAnswer.ofOutcome r) := by
  cases r with
  | ok n => exact h n List.mem_cons_self
  | error e => exact h

/-! ## Steps -/

variable {registers : Registers}

/-- A literal is read, and a register holds what was come by before. -/
theorem Operand.yields_value (h : registers.Sound) (operand : Operand) :
    Yields Reachable (operand.value registers) := by
  cases operand with
  | literal text =>
    have hread : ∀ n ∈ (Number.ofText? text).numbers, Reachable n := fun _ hn => .literal hn
    rw [value]
    cases htext : Number.ofText? text with
    | ok n =>
      rw [htext] at hread
      exact hread n List.mem_cons_self
    | error e =>
      rw [htext] at hread
      exact hread
  | register name =>
    rw [value]
    cases hname : registers.get? name with
    | some n => exact h.reachable _ (h.get?_eq_some_iff.1 hname)
    | none => trivial
  | absent place => trivial

theorem Action.yields_answer (h : registers.Sound) (action : Action) :
    Yields StepAnswer.Sound (action.answer registers) := by
  cases action with
  | put a => exact (a.yields_value h).bind fun n hn => hn
  | compare a b =>
    exact (a.yields_value h).bind fun x hx => (b.yields_value h).bind fun y hy => ⟨hx, hy⟩
  | binary op limits a b =>
    exact (a.yields_value h).bind fun x hx => (b.yields_value h).bind fun y hy =>
      yields_ofOutcome fun n hn => .binary op limits hx hy hn
  | unary op a =>
    exact (a.yields_value h).bind fun x hx => yields_ofOutcome fun n hn => .unary op hx hn

/-- **What a step does.** It stores its result where it is told to, or it
leaves the registers as they are; and it answers. -/
theorem Step.run_cases (registers : Registers) (step : Step) :
    (∃ n name, step.action.answer registers = .ok (.number n) ∧ step.target = some name ∧
        step.run registers = (.ok (.number n), registers.set name n)) ∨
      step.run registers = (step.action.answer registers, registers) := by
  cases hanswer : step.action.answer registers with
  | error fault => exact .inr (by simp only [run, hanswer])
  | ok answer =>
    cases answer with
    | compared a b => exact .inr (by simp only [run, hanswer])
    | number n =>
      cases htarget : step.target with
      | none => exact .inr (by simp only [run, hanswer, htarget])
      | some name => exact .inl ⟨n, name, rfl, rfl, by simp only [run, hanswer, htarget]⟩

/-- **A step that fails changes nothing.** -/
theorem Step.run_of_error {step : Step} {fault : StepFault}
    (h : (step.run registers).1 = .error fault) : (step.run registers).2 = registers := by
  rcases step.run_cases registers with ⟨n, name, -, -, hrun⟩ | hrun
  · rw [hrun] at h
    cases h
  · rw [hrun]

/-- **A step keeps the registers sound**, and its answer is. -/
theorem Registers.Sound.run (h : registers.Sound) (step : Step) :
    (step.run registers).2.Sound ∧ Yields StepAnswer.Sound (step.run registers).1 := by
  have hanswer := step.action.yields_answer h
  rcases step.run_cases registers with ⟨n, name, hnumber, -, hrun⟩ | hrun
  · rw [hnumber] at hanswer
    rw [hrun]
    exact ⟨h.set name hanswer, hanswer⟩
  · rw [hrun]
    exact ⟨h, hanswer⟩

/-! ## Programs -/

/-- The registers after a program, which starts with none set. -/
def Registers.after (steps : List Step) : Registers :=
  steps.foldl (fun registers step => (step.run registers).2) .empty

/-- **Programs come by reachable numbers only.** By induction on the steps:
each finds sound registers and leaves sound ones. -/
theorem Registers.sound_after (steps : List Step) : (Registers.after steps).Sound := by
  induction steps using List.reverseRecOn with
  | nil => exact sound_empty
  | append_singleton steps step ih =>
    rw [after, List.foldl_append]
    exact (ih.run step).1

/-- What a program answers on the way is reachable too. -/
theorem Step.yields_run_after (steps : List Step) (step : Step) :
    Yields StepAnswer.Sound (step.run (Registers.after steps)).1 :=
  ((Registers.sound_after steps).run step).2

/-- So whatever a program has stored is canonical. -/
theorem Registers.canonical_of_get? {steps : List Step} {name : String} {n : Number}
    (h : (Registers.after steps).get? name = some n) : n.Canonical :=
  ((sound_after steps).reachable _ ((sound_after steps).get?_eq_some_iff.1 h)).canonical

end NumericTower

import Stimulus.Proofs.Naming

/-!
# What registrations leave in a module

What has been put into a module stays there, whatever is done with the module later. So a module
without a fault holds everything that the operations of its history have registered.

## Main definitions

* `Module.Retains`: a module retains the variables and the statements of another one.
* `Registration.IsIn`: a module holds what a registration puts into it.

## Main results

* `Module.registrations_isIn`: a module without a fault holds what its history has registered.
-/

namespace Stimulus

open Build

/-- A module **retains** the variables, the statements of the prologue and the epilogue of another
one. -/
structure Module.Retains (m m' : Module) : Prop where
  declared : m.declaredVariables ⊆ m'.declaredVariables
  prologue : prologueStatements m.prologue ⊆ prologueStatements m'.prologue
  epilogue : m.epilogue ⊆ m'.epilogue

/-- Registrations retain what a module holds. -/
theorem admits_retains : Admits (fun _ _ => True) fun m _ m' => m.Retains m' where
  refl _ := ⟨List.Subset.refl _, List.Subset.refl _, List.Subset.refl _⟩
  trans h h' := ⟨List.Subset.trans h.declared h'.declared,
    List.Subset.trans h.prologue h'.prologue, List.Subset.trans h.epilogue h'.epilogue⟩
  fail _ _ := ⟨List.Subset.refl _, List.Subset.refl _, List.Subset.refl _⟩
  net _ _ _ _ _ := ⟨List.Subset.refl _, List.Subset.refl _, List.Subset.refl _⟩
  parameter _ _ _ _ := ⟨List.Subset.refl _, List.Subset.refl _, List.Subset.refl _⟩
  «variable» _ _ _ _ := ⟨List.subset_append_left _ _, List.Subset.refl _, List.Subset.refl _⟩
  prologue m s _ := by
    refine ⟨List.Subset.refl _, ?_, List.Subset.refl _⟩
    rw [prologueStatements_append]
    exact List.subset_append_left _ _
  signal m index event := by
    refine ⟨List.Subset.refl _, ?_, List.Subset.refl _⟩
    rw [prologueStatements_registered]
    exact List.Subset.refl _
  body _ _ _ := ⟨List.Subset.refl _, List.Subset.refl _, List.Subset.refl _⟩
  epilogue _ _ _ := ⟨List.Subset.refl _, List.Subset.refl _, List.subset_append_left _ _⟩
  sequences _ _ := ⟨List.Subset.refl _, List.Subset.refl _, List.Subset.refl _⟩
  markers _ _ := ⟨List.Subset.refl _, List.Subset.refl _, List.Subset.refl _⟩
  driver _ _ := trivial
  runner _ _ := trivial

/-- A module holds what a registration of a named variable or of a statement puts into it. -/
def Registration.IsIn (m : Module) : Registration → Prop
  | .named name initial => ⟨name, initial⟩ ∈ m.declaredVariables
  | .prologue s => s ∈ prologueStatements m.prologue
  | .epilogue s => s ∈ m.epilogue
  | _ => True

namespace Registration

/-- A module that retains what another one holds, holds what was put into that. -/
theorem IsIn.of_retains {m m' : Module} {r : Registration} (h : r.IsIn m) (hretains : m.Retains m') :
    r.IsIn m' := by
  cases r with
  | named name initial => exact hretains.declared h
  | «prologue» s => exact hretains.prologue h
  | epilogue s => exact hretains.epilogue h
  | _ => trivial

/-- A registration that succeeds has put in what it puts in. -/
theorem isIn_of_build {m m' : Module} {r : Registration} {u : Unit} (h : r.build m = .ok u m') :
    r.IsIn m' := by
  cases r with
  | named name initial =>
      obtain ⟨v, _, hd, hp⟩ := bind_ok.mp h
      obtain ⟨-, rfl⟩ := pure_ok.mp hp
      obtain ⟨-, -, -, names, rfl⟩ := Module.namedVariable_ok hd
      exact List.mem_append_right _ (List.mem_singleton_self _)
  | «prologue» s =>
      obtain ⟨-, rfl⟩ := Module.addPrologue_ok h
      rw [IsIn, prologueStatements_append]
      exact List.mem_append_right _ (List.mem_singleton_self _)
  | epilogue s =>
      obtain ⟨-, rfl⟩ := Module.addEpilogue_ok h
      exact List.mem_append_right _ (List.mem_singleton_self _)
  | _ => trivial

/-- A run of registrations puts in what all of them put in. -/
theorem isIn_of_runAll {rs : List Registration} {m m' : Module} {u : Unit}
    (h : runAll rs m = .ok u m') {r : Registration} (hr : r ∈ rs) : r.IsIn m' := by
  induction rs generalizing m with
  | nil => exact absurd hr List.not_mem_nil
  | cons first rest ih =>
      obtain ⟨_, m₁, hbuild, hrest⟩ := bind_ok.mp h
      rcases List.mem_cons.mp hr with rfl | hr
      · have hkept : Relates _ (runAll rest) := runAll_relates admits_retains.toComposes fun r _ =>
          r.build_relates_of admits_retains fun _ _ _ => trivial
        exact (isIn_of_build hbuild).of_retains (hkept.ok hrest)
      · exact ih hrest hr

end Registration

/-- **A module without a fault holds what its history has registered.** -/
theorem Module.registrations_isIn {options : Options} {present name : String} {m₀ : Module}
    (h₀ : Module.new? options present name = .ok m₀) {history : List Operation}
    (hfault : (m₀.after history).fault = none) {o : Operation} (ho : o ∈ history)
    {r : Registration} (hr : r ∈ o.registrations options.devices) :
    r.IsIn (m₀.after history) := by
  have hrun := after_ok hfault
  rw [eq_of_new? h₀] at hrun ⊢
  exact Registration.isIn_of_runAll hrun (List.mem_flatMap.mpr ⟨o, ho, hr⟩)

end Stimulus

import Mathlib.Data.List.Perm.Basic
import Stimulus.Proofs.Taking

/-!
# Devices on different terminals

The names of what belongs to a device start with its pin and go on with a part between dollar signs.
As long as the user's names have no dollar signs, such a name can be taken apart again: it tells the
part, the pin, and for a bit of a bus the bus and the index. So devices on different pins never
share a name.

A switch has two terminals, and its names start with both of them, **joined** by an underscore. An
underscore may also stand in the name of a net, so joined terminals cannot be taken apart: `a_b` and
`c` are joined to the same text as `a` and `b_c`, and `a` and `b` to the name of a net `a_b`. Then
the names of the devices clash, and the one that comes later is refused.

## Main definitions

* `Name.Bare`, `Name.Extends`: names without dollar signs, and the texts made from them.
* `Switch.joined`: the terminals of a switch as the beginning of its names.
* `Family`: the names of one device.
* `Operation.pins`, `Operation.pairs`: the pins that an operation puts devices on, with the parts of
  these that have names, and the terminals of its switch.
* `DifferentTerminals`: no two devices of a history use the same pin or the same terminals.
* `Apart`: the switches of a history are told apart by their joined terminals.

## Main results

* `Net.ident_inj`: different nets begin different names.
* `Family.disjoint_iff`: when two devices share no name.
* `Switch.joined_inj`: without underscores joined terminals can be taken apart.
* `Module.devices_installed`: all devices on different terminals are installed exactly if the
  switches are apart.
-/

namespace Stimulus

open Build

/-! ### Lists that are taken apart -/

section Lists

variable {α : Type} {a : α} {xs ys ps qs : List α}

/-- A list is taken apart at the first occurrence of an element. -/
theorem append_cons_inj_left (hxs : a ∉ xs) (hys : a ∉ ys) (h : xs ++ a :: ps = ys ++ a :: qs) :
    xs = ys ∧ ps = qs := by
  induction xs generalizing ys with
  | nil =>
      cases ys with
      | nil => exact ⟨rfl, (List.cons.inj h).2⟩
      | cons y ys =>
          obtain ⟨rfl, -⟩ := List.cons.inj h
          exact absurd List.mem_cons_self hys
  | cons x xs ih =>
      cases ys with
      | nil =>
          obtain ⟨rfl, -⟩ := List.cons.inj h
          exact absurd List.mem_cons_self hxs
      | cons y ys =>
          obtain ⟨rfl, hrest⟩ := List.cons.inj h
          obtain ⟨rfl, rfl⟩ := ih (List.not_mem_of_not_mem_cons hxs)
            (List.not_mem_of_not_mem_cons hys) hrest
          exact ⟨rfl, rfl⟩

/-- A list is taken apart at the last occurrence of an element. -/
theorem append_cons_inj_right (hps : a ∉ ps) (hqs : a ∉ qs) (h : xs ++ a :: ps = ys ++ a :: qs) :
    xs = ys ∧ ps = qs := by
  have hreverse : ps.reverse ++ a :: xs.reverse = qs.reverse ++ a :: ys.reverse := by
    simpa using congrArg List.reverse h
  obtain ⟨hp, hx⟩ := append_cons_inj_left (mt List.mem_reverse.mp hps)
    (mt List.mem_reverse.mp hqs) hreverse
  exact ⟨List.reverse_inj.mp hx, List.reverse_inj.mp hp⟩

end Lists

/-! ### Names that are taken apart -/

/-- A digit is no dollar sign. -/
theorem dollar_notMem_toString (n : Nat) : '$' ∉ (toString n).toList := by
  intro h
  have hdigit : '$'.isDigit = true :=
    Nat.isDigit_of_mem_toDigits (b := 10) (n := n) (by decide) (by decide) (by simpa using h)
  exact absurd hdigit (by decide)

/-- The name of a part of what a text stands for. -/
def ownedName (base part : String) : String :=
  base ++ "_$" ++ part ++ "$"

/-- The characters of the name of a part. -/
theorem toList_ownedName (base part : String) :
    (ownedName base part).toList = base.toList ++ '_' :: '$' :: (part.toList ++ ['$']) := by
  simp [ownedName, String.toList_append]

/-- The name of a part tells the part and what it belongs to, if there is no dollar sign in the
part. -/
theorem ownedName_inj {base base' part part' : String} (hpart : '$' ∉ part.toList)
    (hpart' : '$' ∉ part'.toList) (h : ownedName base part = ownedName base' part') :
    base = base' ∧ part = part' := by
  have hlist : (base.toList ++ ['_']) ++ '$' :: part.toList
      = (base'.toList ++ ['_']) ++ '$' :: part'.toList := by
    have hchars := congrArg String.toList h
    rw [toList_ownedName, toList_ownedName] at hchars
    refine List.append_cancel_right (?_ : _ ++ ['$'] = _ ++ ['$'])
    simpa using hchars
  obtain ⟨hbase, hparts⟩ := append_cons_inj_right hpart hpart' hlist
  exact ⟨String.toList_injective (List.append_cancel_right hbase), String.toList_injective hparts⟩

/-- A bit of a bus is written like a part of the bus. -/
theorem Net.ident_bit (bus : String) (index : Nat) :
    (Net.bit bus index).ident = ownedName bus (toString index) :=
  rfl

/-- **Different nets** begin different names, if the user has named them without dollar signs. -/
theorem Net.ident_inj {n n' : Net} (hn : '$' ∉ n.given.toList) (hn' : '$' ∉ n'.given.toList)
    (h : n.ident = n'.ident) : n = n' := by
  have hdollar (bus : String) (index : Nat) : '$' ∈ (Net.bit bus index).ident.toList := by
    rw [ident_bit, toList_ownedName]
    simp
  cases n with
  | scalar name =>
      cases n' with
      | scalar name' => exact congrArg Net.scalar h
      | bit bus index =>
          refine absurd (hdollar bus index) ?_
          rw [← h]
          exact hn
  | bit bus index =>
      cases n' with
      | scalar name =>
          refine absurd (hdollar bus index) ?_
          rw [h]
          exact hn'
      | bit bus' index' =>
          obtain ⟨rfl, hindex⟩ :=
            ownedName_inj (dollar_notMem_toString _) (dollar_notMem_toString _) h
          exact congrArg _ (Name.anonymous_inj (congrArg ("_$" ++ ·) hindex))

/-! ### Names that are accepted -/

/-- A name is **bare** if it is accepted and has no dollar sign. -/
structure Name.Bare (name : String) : Prop where
  accepted : Name.check name = .ok ()
  dollarless : '$' ∉ name.toList

instance (name : String) : Decidable (Name.Bare name) :=
  decidable_of_iff (Name.check name = .ok () ∧ '$' ∉ name.toList)
    ⟨fun ⟨haccepted, hdollarless⟩ => ⟨haccepted, hdollarless⟩, fun h => ⟨h.1, h.2⟩⟩

/-- A text **extends** a name: what it has more is made of the characters of names, and starts with
an underscore. -/
def Name.Extends (name text : String) : Prop :=
  ∃ more, text.toList = name.toList ++ more ∧ (∀ c ∈ more, Name.isRest c = true) ∧
    ∀ c ∈ more.head?, c = '_'

namespace Name

variable {name text : String}

/-- A name extends itself. -/
theorem Extends.refl (name : String) : Extends name name :=
  ⟨[], (List.append_nil _).symm, List.forall_mem_nil _, by simp⟩

/-- What is put behind an extended name extends it as well. -/
theorem Extends.append (h : Extends name text) {rest : String}
    (hrest : ∀ c ∈ rest.toList, isRest c = true) (hhead : rest.toList.head? = some '_') :
    Extends name (text ++ rest) := by
  obtain ⟨more, htext, hmore, hstart⟩ := h
  refine ⟨more ++ rest.toList, ?_, List.forall_mem_append.mpr ⟨hmore, hrest⟩, ?_⟩
  · rw [String.toList_append, htext, List.append_assoc]
  · cases more with
    | nil =>
        rw [List.nil_append, hhead]
        simp
    | cons c more => exact hstart

/-- An extended name that has a dollar sign is accepted if the name is. -/
theorem Bare.check_extends (hname : Bare name) (h : Extends name text)
    (hdollar : '$' ∈ text.toList) : check text = .ok () := by
  obtain ⟨more, htext, hmore, -⟩ := h
  obtain ⟨c, rest, hchars, hstart, hrest⟩ := exists_cons (check_eq_ok.mp hname.accepted).1
  have hlist : text.toList = c :: (rest ++ more) := by
    rw [htext, hchars, List.cons_append]
  refine check_eq_ok.mpr ⟨isIdentifier_of_cons hlist hstart ?_, fun hword => ?_⟩
  · rw [List.all_append, hrest, List.all_eq_true.mpr hmore, Bool.true_and]
  · have hwords : ∀ w ∈ reserved, '$' ∉ w.toList := by decide
    exact hwords text hword hdollar

/-- An extended name does not start with a dollar sign. -/
theorem Bare.ne_dollar_cons (hname : Bare name) (h : Extends name text) (ts : List Char) :
    text.toList ≠ '$' :: ts := by
  obtain ⟨more, htext, -⟩ := h
  obtain ⟨c, rest, hchars, -⟩ := exists_cons (check_eq_ok.mp hname.accepted).1
  intro heq
  rw [htext, hchars] at heq
  obtain ⟨rfl, -⟩ := List.cons.inj heq
  refine hname.dollarless ?_
  rw [hchars]
  exact List.mem_cons_self

/-- An extended name is not hidden. -/
theorem Bare.not_hidden (hname : Bare name) (h : Extends name text) : ¬ Hidden text := by
  obtain ⟨more, htext, -, hhead⟩ := h
  obtain ⟨c, rest, hchars, -⟩ := exists_cons (check_eq_ok.mp hname.accepted).1
  rintro ⟨ts, hts⟩
  rw [htext, hchars] at hts
  obtain ⟨-, hsecond⟩ := List.cons.inj hts
  -- The second character comes from the name, or from what stands behind it.
  cases rest with
  | nil =>
      have hstart : '$' ∈ more.head? := by
        rw [← show '$' :: ts = more from hsecond]
        rfl
      exact absurd (hhead '$' hstart) (by decide)
  | cons d rest =>
      obtain ⟨rfl, -⟩ := List.cons.inj hsecond
      refine hname.dollarless ?_
      rw [hchars]
      exact List.mem_cons_of_mem _ List.mem_cons_self

end Name

/-- The characters of an extended name may stand in a name. -/
theorem Name.Bare.isRest_extends {name text : String} (hname : Bare name)
    (h : Extends name text) : ∀ c ∈ text.toList, isRest c = true := by
  obtain ⟨more, htext, hmore, -⟩ := h
  rw [htext]
  refine List.forall_mem_append.mpr ⟨fun c hc => ?_, hmore⟩
  exact isRest_of_isIdentifier (check_eq_ok.mp hname.accepted).1 hc

/-- The name of a part extends what its text extends. -/
theorem Name.Extends.owned {name base part : String} (h : Extends name base)
    (hpart : ∀ c ∈ part.toList, isRest c = true) : Extends name (ownedName base part) := by
  rw [ownedName, String.append_assoc, String.append_assoc]
  refine h.append (fun c hc => ?_) (by simp [String.toList_append])
  simp only [String.toList_append, List.mem_append] at hc
  rcases hc with hc | hc | hc
  · exact (by decide : ∀ c ∈ "_$".toList, isRest c = true) c hc
  · exact hpart c hc
  · exact (by decide : ∀ c ∈ "$".toList, isRest c = true) c hc

/-- A net begins names with the name that the user gave. -/
theorem Net.extends_ident (n : Net) : Name.Extends n.given n.ident := by
  cases n with
  | scalar name => exact .refl name
  | bit bus index => exact (Name.Extends.refl bus).owned fun _ => Name.isRest_of_mem_toString

/-- The terminals of a switch, joined by an underscore. -/
def Switch.joined (terminals : Net × Net) : String :=
  terminals.1.ident ++ "_" ++ terminals.2.ident

/-- Joined terminals begin names with the name of the first one. -/
theorem Switch.extends_joined {terminals : Net × Net} (h : Name.Bare terminals.2.given) :
    Name.Extends terminals.1.given (joined terminals) := by
  rw [joined, String.append_assoc]
  refine terminals.1.extends_ident.append (fun c hc => ?_) (by simp [String.toList_append])
  rw [String.toList_append, List.mem_append] at hc
  rcases hc with hc | hc
  · exact (by decide : ∀ c ∈ "_".toList, Name.isRest c = true) c hc
  · exact h.isRest_extends terminals.2.extends_ident c hc

/-! ### The parts of devices -/

/-- The parts of an output with names: a source or a digital output. -/
def outputParts : List String :=
  ["value", "rise", "fall"]

/-- The parts of a source-measure unit with names. -/
def sourceMeasureParts : List String :=
  ["volt", "maxCur", "minCur", "res", "vDelay", "iDelay", "rDelay", "riseFall"]

/-- The parts of a bidirectional pin with names. -/
def pinParts : List String :=
  ["aux", "value", "enable", "rise", "fall"]

/-- The parts of a clock with names. -/
def clockParts : List String :=
  ["value", "rise", "fall", "out", "isOn", "halfPeriod", "time"]

/-- The parts of a switch with names. -/
def switchParts : List String :=
  ["cond", "rise", "fall"]

/-- The parts of each kind of device on a pin. -/
def partLists : List (List String) :=
  [outputParts, sourceMeasureParts, pinParts, clockParts]

/-- The parts of a device are different, and they are made of the characters of names without dollar
signs. -/
theorem of_mem_partLists : ∀ parts ∈ switchParts :: partLists, parts.Nodup ∧ ∀ part ∈ parts,
    '$' ∉ part.toList ∧ ∀ c ∈ part.toList, Name.isRest c = true := by
  decide

/-- The device on a pin and a switch have parts of the same name exactly if the device has a time to
rise. -/
theorem disjoint_switchParts {parts : List String} (h : parts ∈ partLists) :
    parts.Disjoint switchParts ↔ "rise" ∉ parts := by
  constructor
  · exact fun hdisjoint hrise => hdisjoint hrise (by decide)
  · intro hrise
    have hshared : ∀ parts ∈ partLists, "rise" ∉ parts → ∀ part ∈ parts, part ∉ switchParts := by
      decide
    exact hshared parts h hrise

/-! ### Families of names -/

/-- A **family** of names: the text that they start with, and the parts that they are for. -/
structure Family where
  base : String
  parts : List String

namespace Family

/-- The names of a family. -/
def names (w : Family) : List String :=
  w.parts.map (ownedName w.base)

/-- A family is **sound** if its text extends a bare name and its parts are those of a device. -/
structure Sound (w : Family) : Prop where
  base : ∃ name, Name.Bare name ∧ Name.Extends name w.base
  parts : w.parts ∈ switchParts :: partLists

/-- The parts of a family have no dollar signs. -/
theorem Sound.dollarless {w : Family} (h : w.Sound) : ∀ part ∈ w.parts, '$' ∉ part.toList :=
  fun part hpart => ((of_mem_partLists _ h.parts).2 part hpart).1

/-- The names of a family are different. -/
theorem Sound.nodup_names {w : Family} (h : w.Sound) : w.names.Nodup := by
  refine List.Nodup.map_on (fun part hpart part' hpart' heq => ?_) (of_mem_partLists _ h.parts).1
  exact (ownedName_inj (h.dollarless part hpart) (h.dollarless part' hpart') heq).2

/-- The names of a family are accepted and not hidden. -/
theorem Sound.accepted {w : Family} (h : w.Sound) :
    ∀ x ∈ w.names, '$' ∈ x.toList ∧ Name.check x = .ok () ∧ ¬ Name.Hidden x := by
  intro x hx
  obtain ⟨part, hpart, rfl⟩ := List.mem_map.mp hx
  obtain ⟨name, hbare, hextends⟩ := h.base
  have hdollar : '$' ∈ (ownedName w.base part).toList := by
    rw [toList_ownedName]
    simp
  have howned := hextends.owned ((of_mem_partLists _ h.parts).2 part hpart).2
  exact ⟨hdollar, hbare.check_extends howned hdollar, hbare.not_hidden howned⟩

/-- **Two families** share no name if they start with different texts or have no part in common. -/
theorem disjoint_iff {v w : Family} (hv : v.Sound) (hw : w.Sound) :
    v.names.Disjoint w.names ↔ (v.base = w.base → v.parts.Disjoint w.parts) := by
  constructor
  · intro h hbase part hpart hpart'
    refine h (List.mem_map_of_mem hpart) ?_
    rw [hbase]
    exact List.mem_map_of_mem hpart'
  · intro h x hx hx'
    obtain ⟨part, hpart, rfl⟩ := List.mem_map.mp hx
    obtain ⟨part', hpart', heq⟩ := List.mem_map.mp hx'
    obtain ⟨hbase, rfl⟩ := ownedName_inj (hw.dollarless part' hpart') (hv.dollarless part hpart) heq
    exact h hbase.symm hpart hpart'

/-- The names of families are different exactly if families that start with the same text have no
part in common. -/
theorem nodup_iff {families : List Family} (h : ∀ w ∈ families, w.Sound) :
    (families.flatMap (·.names)).Nodup ↔
      families.Pairwise fun v w => v.base = w.base → v.parts.Disjoint w.parts := by
  rw [List.nodup_flatMap, and_iff_right fun w hw => (h w hw).nodup_names]
  exact List.Pairwise.iff_of_mem fun hv hw => disjoint_iff (h _ hv) (h _ hw)

end Family

/-! ### The families of a history -/

/-- The names of a device on a pin. -/
def Family.ofPin (p : Net × List String) : Family :=
  ⟨p.1.ident, p.2⟩

/-- The names of a switch. -/
def Family.ofPair (terminals : Net × Net) : Family :=
  ⟨Switch.joined terminals, switchParts⟩

namespace Operation

/-- The pins that an operation puts devices on, each with the parts of its device that have names.
Inputs have no names. -/
def pins : Operation → List (Net × List String)
  | .voltageSource pin => [(pin, outputParts)]
  | .currentSource pin => [(pin, outputParts)]
  | .sourceMeasure pin => [(pin, sourceMeasureParts)]
  | .digitalOutput pin _ => [(pin, outputParts)]
  | .digitalPin pin _ => [(pin, pinParts)]
  | .clock pin _ => [(pin, clockParts)]
  | .outputBus wires _ => wires.bits.map (·, outputParts)
  | .pinBus wires _ => wires.bits.map (·, pinParts)
  | _ => []

/-- The terminals of the switch that an operation installs, if it does. -/
def pairs : Operation → List (Net × Net)
  | .switch first second => [(first, second)]
  | _ => []

/-- The families of names of an operation. -/
def families (o : Operation) : List Family :=
  o.pins.map .ofPin ++ o.pairs.map .ofPair

/-- The names that the user chooses in an operation. -/
def chosen : Operation → List String
  | .net name _ => [name]
  | .bus name _ _ => [name]
  | .electrical name _ _ => [name]
  | .parameter name _ => [name]
  | .namedVariable name _ => [name]
  | .marker tag => ["MARK_" ++ tag]
  | _ => []

/-- What is registered on the bits of a bus belongs to them. -/
theorem claimedBy_bits {wires : Bus} {f : Net → List Registration} (parts : List String)
    (h : ∀ pin, claimedBy (f pin) = parts.map pin.owned) :
    claimedBy (wires.bits.flatMap f)
      = (wires.bits.map fun pin => Family.mk pin.ident parts).flatMap (·.names) := by
  rw [claimedBy, List.flatMap_assoc, List.flatMap_map]
  exact List.flatMap_congr fun pin _ => h pin

/-- **The names of a device** are those of its families. -/
theorem claimedBy_registrations {o : Operation} (ho : o.isDevice = true) (d : DeviceDefaults) :
    claimedBy (o.registrations d) = o.families.flatMap (·.names) := by
  cases o with
  | voltageSource pin => rfl
  | currentSource pin => rfl
  | sourceMeasure pin => rfl
  | digitalOutput pin domain => rfl
  | digitalInput pin domain => rfl
  | digitalPin pin domain => rfl
  | clock pin domain => rfl
  | «switch» first second =>
      simp [claimedBy, registrations, Switch.registrations, Edges.registrations, families, pins,
        pairs, Family.names, Family.ofPair, switchParts, Switch.owned, Net.owned, ownedName,
        Switch.joined, String.append_assoc]
  | outputBus wires domain =>
      rw [registrations, claimedBy_bits outputParts fun _ => rfl]
      simp [families, pins, pairs, Family.ofPin, Function.comp_def]
  | inputBus wires domain =>
      rw [registrations, claimedBy_bits [] fun _ => rfl]
      simp [families, pins, pairs, Family.names]
  | pinBus wires domain =>
      rw [registrations, claimedBy_bits pinParts fun _ => rfl]
      simp [families, pins, pairs, Family.ofPin, Function.comp_def]
  | _ => cases ho

/-- What is not a device has no families of names. -/
theorem families_eq_nil {o : Operation} (ho : o.isDevice = false) : o.families = [] := by
  cases o with
  | net | bus | electrical | parameter | anonymousVariable | namedVariable | addPrologue | addBody
  | addEpilogue | sequence | marker => rfl
  | _ => cases ho

/-- What is not a device registers names that the user chose, or hidden ones. -/
theorem chosen_or_hidden {o : Operation} (ho : o.isDevice = false) (d : DeviceDefaults) :
    ∀ x ∈ claimedBy (o.registrations d), x ∈ o.chosen ∨ Name.Hidden x := by
  cases o with
  | marker tag =>
      refine List.forall_mem_cons.mpr ⟨.inl (List.mem_singleton_self _), ?_⟩
      exact List.forall_mem_singleton.mpr (.inr (Name.Hidden.append ⟨_, rfl⟩ tag))
  | net | bus | electrical | parameter | anonymousVariable | namedVariable | addPrologue | addBody
  | addEpilogue | sequence => exact fun x hx => .inl hx
  | _ => cases ho

/-- The parts on pins are those of a kind of device. -/
theorem parts_mem (o : Operation) : ∀ p ∈ o.pins, p.2 ∈ partLists := by
  cases o with
  | outputBus wires domain | pinBus wires domain =>
      intro p hp
      obtain ⟨pin, -, rfl⟩ := List.mem_map.mp hp
      simp [partLists]
  | _ => simp [pins, partLists]

end Operation

/-- The names of the devices of a history are those of its families. -/
theorem deviceNames_eq (d : DeviceDefaults) (history : List Operation) :
    deviceNames d history = (history.flatMap (·.families)).flatMap (·.names) := by
  induction history with
  | nil => rfl
  | cons o rest ih =>
      rw [List.flatMap_cons, List.flatMap_append, ← ih]
      cases ho : o.isDevice with
      | true => rw [deviceNames_cons ho, o.claimedBy_registrations ho]
      | false =>
          rw [deviceNames_cons_other ho, o.families_eq_nil ho]
          rfl

/-- The families of a history are those of its pins and those of its switches. -/
theorem families_perm (history : List Operation) :
    (history.flatMap (·.families)).Perm
      ((history.flatMap (·.pins)).map .ofPin ++ (history.flatMap (·.pairs)).map .ofPair) := by
  rw [List.map_flatMap, List.map_flatMap]
  exact (List.flatMap_append_perm history _ _).symm

/-! ### Names without dollar signs -/

/-- The devices of a history are on **different terminals**: no two of them use the same pin, or
the same two terminals in the same order. The nets are known by accepted names without dollar
signs, and there are none in the other names that the user chooses. -/
structure DifferentTerminals (history : List Operation) : Prop where
  chosen : ∀ o ∈ history, ∀ x ∈ o.chosen, '$' ∉ x.toList
  barePins : ∀ p ∈ history.flatMap (·.pins), Name.Bare p.1.given
  barePairs : ∀ p ∈ history.flatMap (·.pairs), Name.Bare p.1.given ∧ Name.Bare p.2.given
  pins : ((history.flatMap (·.pins)).map (·.1)).Nodup
  pairs : (history.flatMap (·.pairs)).Nodup

/-- The switches of a history are **apart**: no two of them have terminals that are joined to the
same text, and this is not the text of a pin whose device has a time to rise. -/
structure Apart (history : List Operation) : Prop where
  pairs : ((history.flatMap (·.pairs)).map Switch.joined).Nodup
  pins : ∀ pair ∈ history.flatMap (·.pairs), ∀ p ∈ history.flatMap (·.pins), "rise" ∈ p.2 →
    Switch.joined pair ≠ p.1.ident

namespace DifferentTerminals

variable {history : List Operation}

/-- The families of a history are sound. -/
theorem sound (h : DifferentTerminals history) :
    ∀ w ∈ history.flatMap (·.families), w.Sound := by
  intro w hw
  rw [(families_perm history).mem_iff, List.mem_append] at hw
  rcases hw with hw | hw
  · obtain ⟨p, hp, rfl⟩ := List.mem_map.mp hw
    refine ⟨⟨_, h.barePins p hp, p.1.extends_ident⟩, ?_⟩
    obtain ⟨o, -, ho⟩ := List.mem_flatMap.mp hp
    exact List.mem_cons_of_mem _ (o.parts_mem p ho)
  · obtain ⟨p, hp, rfl⟩ := List.mem_map.mp hw
    obtain ⟨hfirst, hsecond⟩ := h.barePairs p hp
    exact ⟨⟨_, hfirst, Switch.extends_joined hsecond⟩, List.mem_cons_self⟩

/-- The names of the devices have dollar signs, are accepted and are not hidden. -/
theorem accepted (h : DifferentTerminals history) (d : DeviceDefaults) :
    ∀ x ∈ deviceNames d history, '$' ∈ x.toList ∧ Name.check x = .ok () ∧ ¬ Name.Hidden x := by
  intro x hx
  rw [deviceNames_eq] at hx
  obtain ⟨w, hw, hx⟩ := List.mem_flatMap.mp hx
  exact (h.sound w hw).accepted x hx

/-- Nothing but devices registers their names. -/
theorem others (h : DifferentTerminals history) (d : DeviceDefaults) :
    ∀ o ∈ history, o.isDevice = false →
      ∀ x ∈ claimedBy (o.registrations d), x ∉ deviceNames d history := by
  intro o ho hother x hx hname
  obtain ⟨hdollar, -, hnotHidden⟩ := h.accepted d x hname
  rcases o.chosen_or_hidden hother d x hx with hchosen | hhidden
  · exact h.chosen o ho x hchosen hdollar
  · exact hnotHidden hhidden

/-- The families of pins start with different texts. -/
theorem pairwise_pins (h : DifferentTerminals history) :
    (history.flatMap (·.pins)).Pairwise fun p q =>
      (Family.ofPin p).base = (Family.ofPin q).base →
        (Family.ofPin p).parts.Disjoint (Family.ofPin q).parts := by
  refine (List.pairwise_map.mp h.pins).imp_of_mem fun {p q} hp hq hne heq => ?_
  exact absurd (Net.ident_inj (h.barePins p hp).dollarless (h.barePins q hq).dollarless heq) hne

/-- The families of switches have no name in common exactly if they start with different texts. -/
theorem pairwise_pairs (ps : List (Net × Net)) :
    (ps.Pairwise fun p q => (Family.ofPair p).base = (Family.ofPair q).base →
      (Family.ofPair p).parts.Disjoint (Family.ofPair q).parts) ↔ (ps.map Switch.joined).Nodup := by
  rw [List.Nodup, List.pairwise_map]
  have hshared : "cond" ∈ switchParts := by decide
  exact List.Pairwise.iff fun p q => ⟨fun h heq => h heq hshared hshared,
    fun hne heq => absurd heq hne⟩

/-- **The names of devices on different terminals** are different exactly if the switches are
apart. -/
theorem nodup_iff (h : DifferentTerminals history) (d : DeviceDefaults) :
    (deviceNames d history).Nodup ↔ Apart history := by
  have hparts : ∀ p ∈ history.flatMap (·.pins), p.2.Disjoint switchParts ↔ "rise" ∉ p.2 := by
    intro p hp
    obtain ⟨o, -, ho⟩ := List.mem_flatMap.mp hp
    exact disjoint_switchParts (o.parts_mem p ho)
  rw [deviceNames_eq, Family.nodup_iff h.sound, (families_perm history).pairwise_iff
    fun hvw heq => List.disjoint_symm (hvw heq.symm), List.pairwise_append, List.pairwise_map,
    List.pairwise_map, and_iff_right h.pairwise_pins, pairwise_pairs, List.forall_mem_map]
  simp only [List.forall_mem_map]
  constructor
  · rintro ⟨hpairs, hcross⟩
    refine ⟨hpairs, fun pair hpair p hp hrise heq => ?_⟩
    exact (hparts p hp).mp (hcross p hp pair hpair heq.symm) hrise
  · intro hapart
    refine ⟨hapart.pairs, fun p hp pair hpair heq => ?_⟩
    exact (hparts p hp).mpr fun hrise => hapart.pins pair hpair p hp hrise heq.symm

end DifferentTerminals

/-! ### Names without underscores -/

/-- What stands behind the first underscore of the text of a net, an underscore and some characters
more, if there is no underscore in the name of the net. -/
def Net.behind (ts : List Char) : Net → List Char
  | .scalar _ => ts
  | .bit _ index => '$' :: ((toString index).toList ++ '$' :: '_' :: ts)

/-- The characters of joined terminals. -/
theorem Switch.toList_joined (p : Net × Net) :
    (joined p).toList = p.1.given.toList ++ '_' :: p.1.behind p.2.ident.toList := by
  obtain ⟨first, second⟩ := p
  cases first with
  | scalar name => simp [joined, Net.ident, Net.given, Net.behind, String.toList_append]
  | bit bus index =>
      simp [joined, Net.ident_bit, toList_ownedName, Net.given, Net.behind, String.toList_append]

/-- Joined terminals are taken apart if the first ones have no underscores. -/
theorem Switch.joined_inj {p q : Net × Net} (hp : '_' ∉ p.1.given.toList)
    (hq : '_' ∉ q.1.given.toList) (hp₂ : Name.Bare p.2.given) (hq₂ : Name.Bare q.2.given)
    (h : joined p = joined q) : p = q := by
  have hlist := congrArg String.toList h
  rw [toList_joined, toList_joined] at hlist
  obtain ⟨hgiven, hbehind⟩ := append_cons_inj_left hp hq hlist
  have hsecond (heq : p.2.ident.toList = q.2.ident.toList) : p.2 = q.2 :=
    Net.ident_inj hp₂.dollarless hq₂.dollarless (String.toList_injective heq)
  obtain ⟨first, second⟩ := p
  obtain ⟨first', second'⟩ := q
  cases first with
  | scalar name =>
      cases first' with
      | scalar name' =>
          obtain rfl : name = name' := String.toList_injective hgiven
          exact congrArg _ (hsecond hbehind)
      | bit bus index => exact absurd hbehind (hp₂.ne_dollar_cons second.extends_ident _)
  | bit bus index =>
      cases first' with
      | scalar name => exact absurd hbehind.symm (hq₂.ne_dollar_cons second'.extends_ident _)
      | bit bus' index' =>
          obtain rfl : bus = bus' := String.toList_injective hgiven
          obtain ⟨hindex, hrest⟩ := append_cons_inj_left (dollar_notMem_toString index)
            (dollar_notMem_toString index') (List.cons.inj hbehind).2
          obtain rfl : index = index' :=
            Name.anonymous_inj (congrArg ("_$" ++ ·) (String.toList_injective hindex))
          exact congrArg _ (hsecond (List.cons.inj hrest).2)

/-- Joined terminals are not the text of a pin if there are no underscores. -/
theorem Switch.joined_ne_ident {p : Net × Net} {n : Net} (hp : '_' ∉ p.1.given.toList)
    (hn : '_' ∉ n.given.toList) (hp₂ : Name.Bare p.2.given) : joined p ≠ n.ident := by
  intro h
  have hlist := congrArg String.toList h
  rw [toList_joined] at hlist
  cases n with
  | scalar name =>
      refine hn ?_
      rw [show (Net.scalar name).given.toList = _ from hlist.symm]
      simp
  | bit bus index =>
      rw [Net.ident_bit, toList_ownedName] at hlist
      obtain ⟨-, hbehind⟩ := append_cons_inj_left hp hn hlist
      obtain ⟨first, second⟩ := p
      cases first with
      | scalar name => exact absurd hbehind (hp₂.ne_dollar_cons second.extends_ident _)
      | bit bus' index' =>
          obtain ⟨-, hrest⟩ := append_cons_inj_left (dollar_notMem_toString index')
            (dollar_notMem_toString index) (List.cons.inj hbehind).2
          cases hrest

/-- Without underscores in the names of pins and first terminals the switches are apart. -/
theorem DifferentTerminals.apart {history : List Operation} (h : DifferentTerminals history)
    (hpins : ∀ p ∈ history.flatMap (·.pins), '_' ∉ p.1.given.toList)
    (hpairs : ∀ p ∈ history.flatMap (·.pairs), '_' ∉ p.1.given.toList) : Apart history := by
  constructor
  · refine h.pairs.map_on fun p hp q hq heq => ?_
    exact Switch.joined_inj (hpairs p hp) (hpairs q hq) (h.barePairs p hp).2 (h.barePairs q hq).2
      heq
  · intro p hp n hn _
    exact Switch.joined_ne_ident (hpairs p hp) (hpins n hn) (h.barePairs p hp).2

/-! ### Installation -/

namespace Module

/-- **Devices on different terminals** are all installed exactly if the switches are apart, and so
are all their names different. It suffices that no pin and no first terminal of a switch has an
underscore in its name. -/
theorem devices_installed {options : Options} {present name : String} {m₀ : Module}
    (h₀ : Module.new? options present name = .ok m₀) {history : List Operation}
    (h : DifferentTerminals history) :
    (m₀.Installs history ↔ Apart history) ∧
      ((deviceNames options.devices history).Nodup ↔ Apart history) ∧
      ((∀ p ∈ history.flatMap (·.pins), '_' ∉ p.1.given.toList) →
        (∀ p ∈ history.flatMap (·.pairs), '_' ∉ p.1.given.toList) → Apart history) := by
  obtain rfl := eq_of_new? h₀
  refine ⟨?_, h.nodup_iff _, h.apart⟩
  have haccepted := h.accepted options.devices
  rw [installs_iff (fun x hx => (haccepted x hx).2.2) (h.others _), ← h.nodup_iff options.devices]
  refine ⟨fun hvacant => hvacant.nodup, fun hnodup => ⟨hnodup, fun x hx => ?_, fun x hx => ?_⟩⟩
  · exact (haccepted x hx).2.1
  · exact List.not_mem_nil

/-- Devices of all kinds on nets and on bits of buses, between two failures. -/
theorem devices_installed_bench :
    let vdd : Net := .scalar "vdd"
    let data : Bus := ⟨"data", 2⟩
    let history : List Operation :=
      [.net "vdd" .input, .net "out_1" .inout, .net "clk" .output, .bus "data" 2 .inout,
        .net "clk" .output, .sourceMeasure (.scalar "out_1"), .voltageSource vdd,
        .outputBus data vdd, .clock (.scalar "clk") vdd, .digitalInput (.scalar "clk") vdd,
        .switch (.bit "data" 0) (.scalar "out_1"), .marker "end", .marker "end",
        .switch (.scalar "clk") (.bit "data" 1)]
    ∃ m₀, Module.new? .standard "" "bench" = .ok m₀ ∧ m₀.Installs history ∧
      (deviceNames Options.standard.devices history).Nodup := by
  intro vdd data history
  obtain ⟨m₀, h₀⟩ : ∃ m₀, Module.new? .standard "" "bench" = .ok m₀ := ⟨_, rfl⟩
  have h : DifferentTerminals history := ⟨by decide, by decide, by decide, by decide, by decide⟩
  have hapart : Apart history := ⟨by decide, by decide⟩
  obtain ⟨hinstalls, hnodup, -⟩ := devices_installed h₀ h
  exact ⟨m₀, h₀, hinstalls.mpr hapart, hnodup.mpr hapart⟩

/-- Two switches on four different nets, of which the second one is refused. -/
theorem joined_terminals_clash :
    let history : List Operation :=
      [.net "a" .inout, .net "a_b" .inout, .net "b_c" .inout, .net "c" .inout,
        .switch (.scalar "a_b") (.scalar "c"), .switch (.scalar "a") (.scalar "b_c")]
    DifferentTerminals history ∧ ∃ m₀, Module.new? .standard "" "dut" = .ok m₀ ∧
      ¬ m₀.Installs history ∧ ¬ (deviceNames Options.standard.devices history).Nodup ∧
      (m₀.after history).fault = some (.badName "a_b_c_$cond$" .taken) := by
  intro history
  have h : DifferentTerminals history := ⟨by decide, by decide, by decide, by decide, by decide⟩
  obtain ⟨m₀, h₀⟩ : ∃ m₀, Module.new? .standard "" "dut" = .ok m₀ := ⟨_, rfl⟩
  have hnodup : ¬ (deviceNames Options.standard.devices history).Nodup := by decide
  refine ⟨h, m₀, h₀, fun hinstalls => hnodup ?_, hnodup, ?_⟩
  · have hvacant := hinstalls.vacant
    rw [eq_of_new? h₀] at hvacant
    exact hvacant.nodup
  · rw [eq_of_new? h₀]
    decide +kernel

end Module

end Stimulus

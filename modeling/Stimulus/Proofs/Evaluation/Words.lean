import Mathlib.Data.BitVec
import Stimulus.Device.DigitalBus
import Stimulus.Proofs.Evaluation.Promotion
import Stimulus.Proofs.Grammar.Readable

/-!
# Integers as words

The integers of the simulator are words of 32 bits in two's complement. Sums wrap around, and a
shift to the left loses the bits that do not fit. A shift to the right may fill with zeros or with
copies of the sign, so no more is said of it than where the other bits go.

## Main definitions

* `Expr.HasValue`: an expression whose text is read and has a value.
* `Interpretation.Words`: an interpretation whose integers are words.
* `Interpretation.machine`: the words of 32 bits, and rationals.

## Main results

* `Expr.HasValue.operation`, `Expr.HasValue.neg`, `Expr.HasValue.of_call`: a lemma for each form.
* `Interpretation.Words.hasValue_bit`: the value of a bit of an integer.
-/

namespace Stimulus

open Grammar

/-! ### Values of expressions -/

namespace Expr

variable {g : Strengths} {I : Interpretation} {k : Kind}

/-- The text of an expression is read, and what is read has a value. -/
def HasValue (g : Strengths) (I : Interpretation) (e : Expr k) (n : I.Num) : Prop :=
  ∃ t, Parses (IsExpressionUnder g) e.text t ∧ t.value I = some n

namespace HasValue

variable {e : Expr k} {a b : Expr .integer} {m n : I.Integer} {x y : I.Num}

/-- What has a value is read. -/
theorem read (h : e.HasValue g I x) :
    ∃ t, readExpression g e.text = some t ∧ t.value I = some x :=
  h.imp fun _ ht => ⟨ht.1.read, ht.2⟩

/-- There is one value at most. -/
theorem unique (hx : e.HasValue g I x) (hy : e.HasValue g I y) : x = y := by
  obtain ⟨t, ht, htx⟩ := hx.read
  obtain ⟨u, hu, huy⟩ := hy.read
  obtain rfl := Option.some.inj (ht.symm.trans hu)
  exact Option.some.inj (htx.symm.trans huy)

/-- An expression that is written with names only has the value of its tree. -/
theorem of_legible (h : e.Legible) (hvalue : e.tree.value I = some x) : e.HasValue g I x :=
  ⟨e.tree, (e.reads_text h).expression.parses.imp fun hx => hx g, hvalue⟩

/-- A literal integer. -/
theorem integer (n : Int) : (Expr.integer n).HasValue g I (.integer (I.integer n)) :=
  of_legible (fun _ ht => absurd ht List.not_mem_nil) (Interpretation.value_ofInt n)

/-- A literal bool. -/
theorem bool (c : Bool) : (Expr.bool c).HasValue g I (.integer (I.bit c)) :=
  of_legible (legible_bool c) (Interpretation.value_ofBool c)

/-- A name. -/
theorem ident {name : String} (h : Name.check name = .ok ()) :
    (Expr.ident name : Expr k).HasValue g I (I.name name) :=
  of_legible (fun _ ht => by rwa [List.mem_singleton.mp ht]) rfl

/-- A quantity of the simulator. -/
theorem environment (q : Environment) :
    (Expr.environment q).HasValue g I (I.name q.name) :=
  of_legible (fun _ ht => absurd ht List.not_mem_nil) rfl

/-- A literal real. -/
theorem real (z : Float) : (Expr.real z).HasValue g I (.real (I.constant (.ofFloat z))) :=
  of_legible (fun _ ht => absurd ht List.not_mem_nil) (Interpretation.value_ofBinary64 _)

/-- The potential of a net. -/
theorem potential {pin : Net} (h : Name.check pin.given = .ok ()) :
    pin.potential.HasValue g I (.real (I.probe "V" [Tree.ofNet pin])) :=
  of_legible (fun _ ht => by rwa [List.mem_singleton.mp ht]) rfl

/-- An operator between two numbers on which it is defined. -/
theorem operation {op : Arithmetic} {defined : op.definedOn k = true} {d e : Expr k} {z : I.Num}
    (hd : d.HasValue g I x) (he : e.HasValue g I y) (hz : Number.arith? op x y = some z) :
    (Expr.arith op defined d e).HasValue g I z := by
  obtain ⟨t, ht, htx⟩ := hd
  obtain ⟨u, hu, huy⟩ := he
  have hop : op.symbol = (Infix.ofArithmetic op).operator.spelling := by cases op <;> rfl
  refine ⟨.infixed (.ofArithmetic op) t u, ?_, ?_⟩
  · rw [text, hop]
    exact ht.binaryText _ hu
  · simp only [Tree.value, htx, huy, Option.bind_eq_bind, Option.bind_some,
      Number.infixed_ofArithmetic, hz]

/-- An operator between two integers. -/
theorem arith (op : Arithmetic) (ha : a.HasValue g I (.integer m))
    (hb : b.HasValue g I (.integer n)) :
    (Expr.arith op op.definedOn_integer a b).HasValue g I (.integer (I.integerArith op m n)) :=
  ha.operation hb rfl

/-- The opposite number. -/
theorem neg {numeric : k ≠ .bool} (he : e.HasValue g I x) :
    (Expr.neg numeric e).HasValue g I x.neg := by
  obtain ⟨t, ht, htx⟩ := he
  refine ⟨_, ht.unaryText .minus, ?_⟩
  simp only [Tree.value, htx, Option.bind_eq_bind, Option.bind_some, Number.prefixed]

/-- A call of a function of numbers. -/
theorem of_call {f : String} {l : Kind} {es : List (Expr l)} {xs : List I.Num} (hword : IsWord f)
    (htoken : Token.ofWord f = .word f) (hf : IsNumeric f)
    (htext : e.text = callText f (es.map text))
    (h : List.Forall₂ (fun d x => d.HasValue g I x) es xs) : e.HasValue g I (.apply f xs) := by
  have htrees : ∃ ts, List.Forall₂ (Parses (IsExpressionUnder g)) (es.map text) ts ∧
      Tree.values I ts = some xs := by
    clear htext
    induction h with
    | nil => exact ⟨[], .nil, rfl⟩
    | cons hd _ ih =>
        obtain ⟨t, ht, hvalue⟩ := hd
        obtain ⟨ts, hts, hvalues⟩ := ih
        exact ⟨t :: ts, .cons ht hts, by simp [Tree.values, hvalue, hvalues]⟩
  obtain ⟨ts, hts, hvalues⟩ := htrees
  exact ⟨.call f ts, htext ▸ parses_callText hword htoken hts, value_call hf hvalues⟩

/-- An integer is true if it is not zero. -/
theorem toBool (ha : a.HasValue g I (.integer m)) :
    a.toBool.HasValue g I (.integer (I.bit (I.integerCompare .ne m (I.natural 0)))) := by
  obtain ⟨t, ht, htm⟩ := ha
  obtain ⟨u, hu, hun⟩ := integer (g := g) (I := I) 0
  have hkept : a.toBool = .compare .ne rfl a (.integer 0) := by
    simp [Expr.toBool, comparison, isConstant]
  refine ⟨.infixed .ne t u, ?_, ?_⟩
  · rw [hkept]
    exact ht.binaryText .ne hu
  · simp only [Tree.value, htm, hun, Option.bind_eq_bind, Option.bind_some, Number.infixed,
      Number.compare]
    rfl

/-- A bool as 0 or 1. -/
theorem ofBool {e : Expr .bool} {c : Bool} (he : e.HasValue g I (.integer (I.bit c))) :
    e.ofBool.HasValue g I (.integer (I.bit c)) := by
  obtain ⟨t, ht, htc⟩ := he
  obtain ⟨u, hu, hone⟩ := integer (g := g) (I := I) 1
  obtain ⟨v, hv, hzero⟩ := integer (g := g) (I := I) 0
  refine ⟨_, (parses_condition ht).choiceText hu hv, ?_⟩
  simp only [Tree.value, htc, hone, hzero, Option.bind_eq_bind, Option.bind_some,
    Number.isTrue_bit, Option.pure_def]
  cases c <;> rfl

end HasValue

end Expr

/-! ### Words -/

namespace Interpretation

/-- The integers are words of two's complement, of which some may be the same word. -/
structure Words (I : Interpretation) where
  word : I.Integer → BitVec wordBits
  word_natural (n : Nat) : word (I.natural n) = BitVec.ofNat wordBits n
  word_neg (m : I.Integer) : word (I.negInteger m) = -word m
  word_add (m n : I.Integer) : word (I.integerArith .add m n) = word m + word n
  word_shl (m n : I.Integer) : word (I.integerArith .shl m n) = word m <<< word n
  word_bitAnd (m n : I.Integer) : word (I.integerArith .bitAnd m n) = word m &&& word n
  /-- The bits that a shift to the right moves. Those that it fills in are left open. -/
  getLsbD_shr (m n : I.Integer) (i : Nat) (h : i + (word n).toNat < wordBits) :
    (word (I.integerArith .shr m n)).getLsbD i = (word m).getLsbD (i + (word n).toNat)
  compare_ne (m n : I.Integer) : I.integerCompare .ne m n = (word m != word n)

namespace Words

variable {g : Strengths} {I : Interpretation} (W : I.Words)

/-- The word of an index. -/
theorem toNat_word_natural {n : Nat} (h : n < wordBits) : (W.word (I.natural n)).toNat = n := by
  rw [W.word_natural, BitVec.toNat_ofNat]
  exact Nat.mod_eq_of_lt (h.trans (by decide))

/-- Whether the lowest bit of a word is set. -/
theorem and_one_ne_zero (v : BitVec wordBits) :
    ((v &&& BitVec.ofNat wordBits 1) != BitVec.ofNat wordBits 0) = v.getLsbD 0 := by
  have hand : v &&& BitVec.ofNat wordBits 1 = (BitVec.ofBool (v.getLsbD 0)).setWidth wordBits :=
    BitVec.and_one_eq_setWidth_ofBool_getLsbD
  rw [hand]
  cases v.getLsbD 0 <;> decide

/-- **The value of a bit** of an integer. -/
theorem hasValue_bit {e : Expr .integer} {x : I.Integer} {i : Nat}
    (he : e.HasValue g I (.integer x)) (hi : i < wordBits) :
    (e.bit (.integer i)).HasValue g I (.integer (I.bit ((W.word x).getLsbD i))) := by
  have hmasked := (he.arith .shr (.integer i)).arith .bitAnd (.integer 1)
  have hindex : (W.word (I.integer i)).toNat = i := W.toNat_word_natural hi
  have hbit := W.getLsbD_shr x (I.integer i) 0 (by omega)
  have htrue : I.integerCompare .ne
      (I.integerArith .bitAnd (I.integerArith .shr x (I.integer i)) (I.integer 1)) (I.natural 0)
        = (W.word x).getLsbD i := by
    have hone : W.word (I.integer 1) = BitVec.ofNat wordBits 1 := W.word_natural 1
    rw [W.compare_ne, W.word_bitAnd, hone, W.word_natural, and_one_ne_zero, hbit, hindex,
      Nat.zero_add]
  rw [← htrue]
  exact hmasked.toBool

end Words

/-! ### The words of 32 bits -/

/-- An operator between two words. -/
def arithWord : Arithmetic → BitVec wordBits → BitVec wordBits → BitVec wordBits
  | .add, m, n => m + n
  | .sub, m, n => m - n
  | .mul, m, n => m * n
  | .div, m, n => m.sdiv n
  | .rem, m, n => m.srem n
  | .shl, m, n => m <<< n
  | .shr, m, n => m >>> n
  | .bitAnd, m, n => m &&& n
  | .bitOr, m, n => m ||| n
  | .bitXor, m, n => m ^^^ n

/-- Comparisons in an order can be mirrored. -/
theorem compareIn_mirrored {α : Type} [LinearOrder α] (op : Comparison) (x y : α) :
    compareIn op.mirrored y x = compareIn op x y := by
  cases op <;> simp [compareIn, Comparison.mirrored, eq_comm]

/-- Words of 32 bits, and rationals without an infinity. No analysis runs, and all branches and all
functions of reals alone are 0. -/
@[reducible] def machine (named : String → Number (BitVec wordBits) ℚ) : Interpretation where
  Integer := BitVec wordBits
  Real := ℚ
  natural := BitVec.ofNat wordBits
  decimal digits power := digits * 10 ^ power
  promote n := n.toInt
  round x := BitVec.ofInt wordBits ⌊x + 1 / 2⌋
  integerArith := arithWord
  realArith := arithRat
  negInteger n := -n
  negReal x := -x
  complement n := ~~~n
  integerCompare op m n := compareIn op m.toInt n.toInt
  realCompare := compareIn
  realChoice c x y := if c then x else y
  integerFunction f ns := BitVec.ofInt wordBits (functionIn f (ns.map BitVec.toInt))
  realFunction := functionIn
  infinity := 0
  named := named
  probe _ _ := 0
  query _ := false
  integerCompare_mirrored op m n := compareIn_mirrored op m.toInt n.toInt
  realCompare_mirrored := compareIn_mirrored
  integerCompare_eq_toNat a b := by cases a <;> cases b <;> rfl
  integerCompare_ne_toNat a b := by cases a <;> cases b <;> rfl
  bitXor_toNat a b := by cases a <;> cases b <;> rfl

/-- The words of 32 bits are words. -/
def machineWords (named : String → Number (BitVec wordBits) ℚ) : (machine named).Words where
  word := id
  word_natural _ := rfl
  word_neg _ := rfl
  word_add _ _ := rfl
  word_shl _ _ := rfl
  word_bitAnd _ _ := rfl
  getLsbD_shr m n i _ := by
    change (m >>> n).getLsbD i = m.getLsbD (i + n.toNat)
    rw [BitVec.ushiftRight_eq', BitVec.getLsbD_ushiftRight, Nat.add_comm]
  compare_ne m n := by
    change decide (m.toInt ≠ n.toInt) = (m != n)
    rw [Bool.eq_iff_iff, decide_eq_true_eq, bne_iff_ne, Ne, BitVec.toInt_inj]

end Interpretation

end Stimulus

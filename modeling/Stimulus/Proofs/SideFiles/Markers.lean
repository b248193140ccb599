import Stimulus.Bench.Basic
import Stimulus.Proofs.Handles
import Stimulus.Proofs.Run.Marking
import Stimulus.Proofs.SideFiles.Reading

/-!
# The side files of markers

The tools that take a marker's side files divide a line of measurements at its commas, and they read
a line of calls as code with string literals in it. A marker's tag cannot hold a comma, a quote or a
backslash, and the quotes of a crossing are protected where they stand in a literal, but a label is
copied as it is. So a line is read as it is meant exactly if the label has nothing in it that
divides it. The label can be told from the line even if it has, since what stands before and behind
it is known.

## Main definitions

* `Marker.Apt`, a marker whose names belong together.

## Main results

* `Marker.Apt.fields_measurement`, `Marker.Apt.pieces?_outputCall`: how the lines are read.
* `Marker.Apt.measurement_inj`, `Marker.Apt.outputCall_inj`: what can be told from them.
* `Module.labels_read`: all of it, for every marker and all labels.
-/

namespace Stimulus

namespace Marker

open Text

/-! ### Lines -/

section Lines

variable (k : Marker) (label : String) (n : Nat)

/-- The name of a measurement has the tag and the label in it. -/
theorem measurementName_eq : k.measurementName label = k.tag ++ "_" ++ label :=
  rfl

/-- A measurement is its fields with commas between them. -/
theorem measurement_eq : k.measurement label n = k.tag ++ "," ++ k.measurementName label
    ++ ",expr," ++ k.crossing n ++ ",t,," :=
  rfl

/-- A call has three literals. -/
theorem outputCall_eq : k.outputCall label n = "axlAddOutputExpr(session \"" ++ k.tag ++ "\" \""
    ++ k.measurementName label ++ "\" ?expr \"" ++ escapeQuotes (k.crossing n)
    ++ "\" ?plot t)" :=
  rfl

/-- A measurement ends in a comma. -/
theorem getLast?_measurement : (k.measurement label n).toList.getLast? = some ',' := by
  rw [measurement_eq, String.toList_append, List.getLast?_append]
  simp

/-- A call ends in a parenthesis. -/
theorem getLast?_outputCall : (k.outputCall label n).toList.getLast? = some ')' := by
  rw [outputCall_eq, String.toList_append, List.getLast?_append]
  simp

end Lines

/-! ### Markers -/

/-- A marker whose names belong together: the name of its port has the tag in it, and the tag has no
characters but those of names. -/
structure Apt (k : Marker) : Prop where
  port : k.port.name = "MARK_" ++ k.tag
  tag : ∀ c ∈ k.tag.toList, Name.isRest c = true

/-- A marker after moments with the given labels are marked. -/
def recorded (k : Marker) (labels : List String) : Marker :=
  labels.foldl (fun k label => (k.mark label).2) k

/-- Marking moments appends their labels. -/
theorem recorded_eq (k : Marker) (labels : List String) :
    k.recorded labels = { k with labels := k.labels ++ labels } := by
  induction labels generalizing k with
  | nil => simp [recorded]
  | cons label rest ih =>
      rw [recorded, List.foldl_cons, ← recorded, ih]
      simp [mark]

namespace Apt

variable {k : Marker} {label : String} {n : Nat}

/-- Characters that no name has are not in the tag. -/
theorem notMem_tag (hk : k.Apt) {c : Char} (hc : Name.isRest c = false) : c ∉ k.tag.toList :=
  fun hmem => Bool.false_ne_true (hc.symm.trans (hk.tag c hmem))

/-- The number of a crossing stands between blanks. -/
theorem toList_crossing (hk : k.Apt) (n : Nat) : (k.crossing n).toList
    = "cross(getData(\"/MARK_".toList ++ k.tag.toList ++ "\" ?result \"tran\") 0.5".toList
        ++ ' ' :: ((toString n).toList ++ " \"either\" nil nil)".toList) := by
  have hcrossing : k.crossing n = "cross(getData(\"/" ++ k.port.name
      ++ "\" ?result \"tran\") 0.5 " ++ toString n ++ " \"either\" nil nil)" := rfl
  have hfront : "cross(getData(\"/MARK_".toList = "cross(getData(\"/".toList ++ "MARK_".toList := by
    simp
  have hblank : "\" ?result \"tran\") 0.5 ".toList
      = "\" ?result \"tran\") 0.5".toList ++ [' '] := by
    simp
  rw [hcrossing, hk.port, hfront]
  simp only [String.toList_append, hblank, List.append_assoc, List.cons_append, List.nil_append]

/-- A crossing has the characters of names and few others. -/
theorem mem_crossing (hk : k.Apt) {c : Char} (hc : c ∈ (k.crossing n).toList) :
    Name.isRest c = true ∨ c ∈ ['(', '"', '/', ' ', '?', ')', '.'] := by
  have hfront : ∀ c ∈ "cross(getData(\"/MARK_".toList,
      Name.isRest c = true ∨ c ∈ ['(', '"', '/', ' ', '?', ')', '.'] := by
    decide +kernel
  have hlevel : ∀ c ∈ "\" ?result \"tran\") 0.5".toList,
      Name.isRest c = true ∨ c ∈ ['(', '"', '/', ' ', '?', ')', '.'] := by
    decide +kernel
  have hback : ∀ c ∈ ' ' :: " \"either\" nil nil)".toList,
      Name.isRest c = true ∨ c ∈ ['(', '"', '/', ' ', '?', ')', '.'] := by
    decide +kernel
  rw [hk.toList_crossing, List.append_assoc, List.mem_append, List.mem_append, List.mem_append,
    List.mem_cons, List.mem_append] at hc
  rcases hc with (hc | hc) | hc | hc | hc | hc
  · exact hfront c hc
  · exact .inl (hk.tag c hc)
  · exact hlevel c hc
  · exact hback c (hc ▸ List.mem_cons_self)
  · exact .inl (Name.isRest_of_mem_toString hc)
  · exact hback c (List.mem_cons_of_mem _ hc)

/-- Other characters are not in a crossing. -/
theorem notMem_crossing (hk : k.Apt) {c : Char} (hc : Name.isRest c = false)
    (hfixed : c ∉ ['(', '"', '/', ' ', '?', ')', '.']) : c ∉ (k.crossing n).toList := fun hmem =>
  (hk.mem_crossing hmem).elim (fun h => Bool.false_ne_true (hc.symm.trans h)) hfixed

/-! ### Measurements -/

/-- The fields of a measurement are those that are meant, where the name of the measurement may be
more than one field. -/
theorem fields_measurement (hk : k.Apt) (label : String) (n : Nat) :
    fields (k.measurement label n) = k.tag :: (fields (k.measurementName label)
      ++ ["expr", k.crossing n, "t", "", ""]) := by
  have hexpr : ",expr,".toList = ',' :: ("expr".toList ++ [',']) := by simp
  have hend : ",t,,".toList = ',' :: ("t".toList ++ ',' :: [] ++ ',' :: []) := by simp
  have htag : ',' ∉ k.tag.toList := hk.notMem_tag (by decide)
  have hcrossing : ',' ∉ (k.crossing n).toList := hk.notMem_crossing (by decide) (by decide)
  have hlist : (k.measurement label n).toList = k.tag.toList ++ ',' ::
      ((k.measurementName label).toList ++ ',' :: ("expr".toList ++ ',' ::
        ((k.crossing n).toList ++ ',' :: ("t".toList ++ ',' :: ([] ++ ',' :: []))))) := by
    rw [measurement_eq]
    simp only [String.toList_append, hexpr, hend]
    simp
  rw [fields, hlist, List.splitOn_append_cons_self_of_not_mem htag, List.splitOn_append_cons_self,
    List.splitOn_append_cons_self_of_not_mem (by decide),
    List.splitOn_append_cons_self_of_not_mem hcrossing,
    List.splitOn_append_cons_self_of_not_mem (by decide),
    List.splitOn_append_cons_self_of_not_mem List.not_mem_nil]
  simp [fields]

/-- A character that is not one of names is in the name of a measurement if it is in the label. -/
theorem mem_measurementName (hk : k.Apt) {c : Char} (hc : Name.isRest c = false) :
    c ∈ (k.measurementName label).toList ↔ c ∈ label.toList := by
  have hbar : c ≠ '_' := by
    rintro rfl
    exact absurd hc (by decide)
  rw [measurementName_eq]
  simp [hk.notMem_tag hc, hbar]

/-- **A measurement is read as it is meant** exactly if there is no comma in the label. -/
theorem fields_measurement_iff (hk : k.Apt) (label : String) (n : Nat) :
    (fields (k.measurement label n)
      = [k.tag, k.measurementName label, "expr", k.crossing n, "t", "", ""]
        ↔ ',' ∉ label.toList) ∧
    ((fields (k.measurement label n)).length = 7 ↔ ',' ∉ label.toList) := by
  have hlength : (fields (k.measurement label n)).length = 7 ↔ ',' ∉ label.toList := by
    rw [hk.fields_measurement, ← hk.mem_measurementName (by decide), ← length_fields]
    simp
  refine ⟨⟨fun h => hlength.mp (congrArg List.length h), fun h => ?_⟩, hlength⟩
  rw [hk.fields_measurement, fields_eq (mt (hk.mem_measurementName (by decide)).mp h)]
  rfl

/-! ### Calls -/

/-- The quotes of a crossing are all that has to be escaped in it. -/
theorem toList_escapeQuotes_crossing (hk : k.Apt) (n : Nat) :
    (escapeQuotes (k.crossing n)).toList = (k.crossing n).toList.flatMap escape := by
  have hbackslash : '\\' ∉ (k.crossing n).toList := hk.notMem_crossing (by decide) (by decide)
  have hline : '\n' ∉ (k.crossing n).toList := hk.notMem_crossing (by decide) (by decide)
  have htab : '\t' ∉ (k.crossing n).toList := hk.notMem_crossing (by decide) (by decide)
  rw [escapeQuotes, String.toList_ofList]
  refine List.flatMap_congr fun c hc => ?_
  unfold escape
  split
  · rfl
  · rw [if_neg (ne_of_mem_of_not_mem hc hbackslash), if_neg (ne_of_mem_of_not_mem hc hline),
      if_neg (ne_of_mem_of_not_mem hc htab)]

/-- What stands in a call behind the literal with the name of a measurement. -/
def afterName (k : Marker) (n : Nat) : List Char :=
  " ?expr ".toList ++ '"' :: ((k.crossing n).toList.flatMap escape ++ '"' :: " ?plot t)".toList)

/-- The characters of what stands in a call behind the name of a measurement. -/
theorem afterName_eq (k : Marker) (n : Nat) : afterName k n = " ?expr ".toList
    ++ '"' :: ((k.crossing n).toList.flatMap escape ++ '"' :: " ?plot t)".toList) :=
  rfl

/-- The literals of a call stand between quotes. -/
theorem toList_outputCall (hk : k.Apt) (label : String) (n : Nat) :
    (k.outputCall label n).toList = "axlAddOutputExpr(session ".toList ++ '"' :: (k.tag.toList
      ++ '"' :: ([' '] ++ '"' :: ((k.measurementName label).toList ++ '"' :: afterName k n))) := by
  have hfront : "axlAddOutputExpr(session \"".toList
      = "axlAddOutputExpr(session ".toList ++ ['"'] := by
    simp
  have hbetween : "\" \"".toList = ['"', ' ', '"'] := by simp
  have hexpr : "\" ?expr \"".toList = '"' :: (" ?expr ".toList ++ ['"']) := by simp
  have hplot : "\" ?plot t)".toList = '"' :: " ?plot t)".toList := by simp
  rw [outputCall_eq, afterName_eq]
  simp only [String.toList_append, hfront, hbetween, hexpr, hplot, hk.toList_escapeQuotes_crossing,
    List.append_assoc, List.cons_append, List.nil_append]

/-- A call is read as it is meant if its rest is, from the name of the measurement on. -/
theorem piecesFrom_outputCall (hk : k.Apt) (label : String) (n : Nat) :
    piecesFrom .code [] (k.outputCall label n).toList
      = (piecesFrom .literal [] ((k.measurementName label).toList ++ '"' :: afterName k n)).map
        fun pieces => "axlAddOutputExpr(session ".toList :: k.tag.toList :: [' '] :: pieces := by
  have htag : '"' ∉ k.tag.toList := hk.notMem_tag (by decide)
  have hbackslash : '\\' ∉ k.tag.toList := hk.notMem_tag (by decide)
  rw [hk.toList_outputCall, piecesFrom_code_quote (by decide), piecesFrom_literal htag hbackslash,
    List.append_nil, piecesFrom_literal_quote, piecesFrom_code_quote (by decide)]
  simp only [Option.map_map, Function.comp_def]

/-- The rest of a call is read as it is meant. -/
theorem piecesFrom_afterName (k : Marker) (n : Nat) :
    piecesFrom .code [] (afterName k n)
      = some [" ?expr ".toList, (k.crossing n).toList, " ?plot t)".toList] := by
  rw [afterName_eq, piecesFrom_code_quote (by decide), piecesFrom_escape, List.append_nil,
    piecesFrom_literal_quote, piecesFrom_code_end (by decide), Option.map_some, Option.map_some]

/-- **A call is read as it is meant** exactly if there is no quote and no backslash in the label. -/
theorem pieces?_outputCall (hk : k.Apt) (label : String) (n : Nat) :
    pieces? (k.outputCall label n) = some ["axlAddOutputExpr(session ", k.tag, " ",
      k.measurementName label, " ?expr ", k.crossing n, " ?plot t)"] ↔
    '"' ∉ label.toList ∧ '\\' ∉ label.toList := by
  let whole (pieces : List (List Char)) : List String :=
    "axlAddOutputExpr(session " :: k.tag :: " " :: pieces.map String.ofList
  have hwhole : Function.Injective whole := fun xs ys h =>
    List.map_injective_iff.mpr (fun _ _ => String.ofList_injective)
      (List.cons.inj (List.cons.inj (List.cons.inj h).2).2).2
  have hpieces : pieces? (k.outputCall label n) = (piecesFrom .literal []
      ((k.measurementName label).toList ++ '"' :: afterName k n)).map whole := by
    rw [pieces?, hk.piecesFrom_outputCall, Option.map_map]
    exact congrArg (Option.map · _) (funext fun pieces => by simp [whole])
  have hmeant : some ["axlAddOutputExpr(session ", k.tag, " ", k.measurementName label, " ?expr ",
      k.crossing n, " ?plot t)"] = (some [(k.measurementName label).toList, " ?expr ".toList,
        (k.crossing n).toList, " ?plot t)".toList]).map whole := by
    simp [whole]
  rw [hpieces, hmeant, (Option.map_injective hwhole).eq_iff,
    ← hk.mem_measurementName (c := '"') (by decide),
    ← hk.mem_measurementName (c := '\\') (by decide)]
  constructor
  · intro h
    rcases piecesFrom_unescaped h with hclean | hshort | ⟨hlast, before, hrest⟩
    · exact hclean
    · simp at hshort
    · -- A literal that goes on behind the name ends in a blank, and the name does not.
      rw [afterName_eq, piecesFrom_literal (by decide) (by decide), piecesFrom, if_pos rfl] at hrest
      obtain ⟨_, -, heq⟩ := Option.map_eq_some_iff.mp hrest
      rw [← (List.cons.inj heq).1] at hlast
      simp at hlast
  · rintro ⟨hquote, hbackslash⟩
    rw [piecesFrom_literal hquote hbackslash, List.append_nil, piecesFrom_literal_quote,
      piecesFrom_afterName, Option.map_some]

/-! ### Telling labels from lines -/

/-- The characters of a measurement around its label and its number. -/
theorem toList_measurement (hk : k.Apt) (label : String) (n : Nat) :
    (k.measurement label n).toList = k.tag.toList ++ ',' :: ((k.tag.toList ++ ['_'])
      ++ (label.toList ++ ((",expr,cross(getData(\"/MARK_".toList ++ k.tag.toList
        ++ "\" ?result \"tran\") 0.5".toList) ++ ' ' :: ((toString n).toList
          ++ " \"either\" nil nil),t,,".toList)))) := by
  have hfront : ",expr,cross(getData(\"/MARK_".toList
      = ",expr,".toList ++ "cross(getData(\"/MARK_".toList := by simp
  have hback : " \"either\" nil nil),t,,".toList
      = " \"either\" nil nil)".toList ++ ",t,,".toList := by simp
  have hcomma : ",".toList = [','] := by simp
  have hbar : "_".toList = ['_'] := by simp
  rw [measurement_eq, measurementName_eq, hfront, hback]
  simp only [String.toList_append, hk.toList_crossing, hcomma, hbar, List.append_assoc,
    List.cons_append, List.nil_append]

/-- **A measurement tells** which marker it is of, what its label is and which number it has. -/
theorem measurement_inj {k' : Marker} {label' : String} {n' : Nat} (hk : k.Apt) (hk' : k'.Apt)
    (h : k.measurement label n = k'.measurement label' n') :
    k.tag = k'.tag ∧ label = label' ∧ n = n' := by
  have hlist := congrArg String.toList h
  rw [hk.toList_measurement, hk'.toList_measurement] at hlist
  obtain ⟨htag, hlabel, hn⟩ := told_apart (hk.notMem_tag (by decide)) (hk'.notMem_tag (by decide))
    (fun tag => tag ++ ['_']) (fun tag => ",expr,cross(getData(\"/MARK_".toList ++ tag
      ++ "\" ?result \"tran\") 0.5".toList) hlist
  exact ⟨String.toList_injective htag, String.toList_injective hlabel, hn⟩

/-- The characters of a call around its label and its number. -/
theorem toList_outputCall_label (hk : k.Apt) (label : String) (n : Nat) :
    (k.outputCall label n).toList = "axlAddOutputExpr(session \"".toList ++ (k.tag.toList
      ++ '"' :: ((" \"".toList ++ k.tag.toList ++ ['_']) ++ (label.toList
        ++ (("\" ?expr \"".toList ++ ("cross(getData(\"/MARK_".toList ++ k.tag.toList
          ++ "\" ?result \"tran\") 0.5".toList).flatMap escape) ++ ' ' :: ((toString n).toList
            ++ (" \"either\" nil nil)".toList.flatMap escape ++ "\" ?plot t)".toList)))))) := by
  have hbetween : "\" \"".toList = '"' :: " \"".toList := by simp
  have hbar : "_".toList = ['_'] := by simp
  have hblank : escape ' ' = [' '] := by decide
  have hdigits : (toString n).toList.flatMap escape = (toString n).toList :=
    flatMap_escape_of_isRest fun c hc => Name.isRest_of_mem_toString hc
  rw [outputCall_eq, measurementName_eq]
  simp only [String.toList_append, hk.toList_escapeQuotes_crossing, hk.toList_crossing, hbetween,
    hbar, List.flatMap_append, List.flatMap_cons, hblank, hdigits, List.append_assoc,
    List.cons_append, List.nil_append]

/-- **A call tells** which marker it is of, what its label is and which number it has. -/
theorem outputCall_inj {k' : Marker} {label' : String} {n' : Nat} (hk : k.Apt) (hk' : k'.Apt)
    (h : k.outputCall label n = k'.outputCall label' n') :
    k.tag = k'.tag ∧ label = label' ∧ n = n' := by
  have hlist := congrArg String.toList h
  rw [hk.toList_outputCall_label, hk'.toList_outputCall_label] at hlist
  obtain ⟨htag, hlabel, hn⟩ := told_apart (hk.notMem_tag (by decide)) (hk'.notMem_tag (by decide))
    (fun tag => " \"".toList ++ tag ++ ['_'])
    (fun tag => "\" ?expr \"".toList ++ ("cross(getData(\"/MARK_".toList ++ tag
      ++ "\" ?result \"tran\") 0.5".toList).flatMap escape)
    (List.append_cancel_left hlist)
  exact ⟨String.toList_injective htag, String.toList_injective hlabel, hn⟩

/-! ### Files -/

/-- A line feed in a measurement is one in its label. -/
theorem lineFeed_mem_measurement (hk : k.Apt) :
    '\n' ∈ (k.measurement label n).toList ↔ '\n' ∈ label.toList := by
  have htag : '\n' ∉ k.tag.toList := hk.notMem_tag (by decide)
  have hcrossing : '\n' ∉ (k.crossing n).toList := hk.notMem_crossing (by decide) (by decide)
  have hname : '\n' ∈ (k.measurementName label).toList ↔ '\n' ∈ label.toList :=
    hk.mem_measurementName (by decide)
  rw [measurement_eq, ← hname]
  simp [htag, hcrossing]

/-- A line feed in a call is one in its label. -/
theorem lineFeed_mem_outputCall (hk : k.Apt) :
    '\n' ∈ (k.outputCall label n).toList ↔ '\n' ∈ label.toList := by
  have htag : '\n' ∉ k.tag.toList := hk.notMem_tag (by decide)
  have hcrossing : '\n' ∉ (escapeQuotes (k.crossing n)).toList := by
    rw [hk.toList_escapeQuotes_crossing, List.mem_flatMap]
    rintro ⟨c, -, hc⟩
    exact lineFeed_notMem_escape c hc
  have hname : '\n' ∈ (k.measurementName label).toList ↔ '\n' ∈ label.toList :=
    hk.mem_measurementName (by decide)
  rw [outputCall_eq, ← hname]
  simp [htag, hcrossing]

end Apt

/-- A file has one line for each label exactly if there is no line feed in the labels, whatever
lines are made of labels and numbers, as long as they have no line feeds of their own. -/
theorem lines_numbered {k : Marker} {line : String → Nat → String} (hne : k.labels ≠ [])
    (hreturn : ∀ label n, (line label n).toList.getLast? ≠ some '\r')
    (hfeed : ∀ label n, '\n' ∈ (line label n).toList ↔ '\n' ∈ label.toList) :
    lines (endLines (k.numbered.map fun (label, n) => line label n))
        = (k.numbered.map fun (label, n) => line label n)
      ↔ ∀ label ∈ k.labels, '\n' ∉ label.toList := by
  have hlabels : k.numbered.map Prod.fst = k.labels := List.zipIdx_map_fst 1 k.labels
  have hnumbered : k.numbered ≠ [] := fun h => hne (by rw [← hlabels, h, List.map_nil])
  rw [lines_endLines (mt List.map_eq_nil_iff.mp hnumbered)
    (List.forall_mem_map.mpr fun p _ => hreturn p.1 p.2), List.forall_mem_map, ← hlabels,
    List.forall_mem_map]
  exact forall₂_congr fun p _ => not_congr (hfeed p.1 p.2)

end Marker

namespace Module

open Text Build

variable {tag : String} {m m' : Module} {k : Marker}

/-- The marker that is installed has the names that its tag gives it. -/
theorem marker_apt (h : marker tag m = .ok k m') : k.Apt ∧ k.tag = tag ∧ k.labels = [] := by
  have hport := marker_ok h
  obtain ⟨port, m₁, hnet, h⟩ := bind_ok.mp h
  obtain ⟨_, _, -, h⟩ := bind_ok.mp h
  obtain ⟨_, _, -, h⟩ := bind_ok.mp h
  obtain ⟨_, _, -, h⟩ := bind_ok.mp h
  obtain ⟨rfl, -⟩ := pure_ok.mp h
  obtain ⟨_, _, hdeclare, -⟩ := bind_ok.mp hnet
  obtain ⟨hident, -⟩ := declareNet_ok hdeclare
  refine ⟨⟨congrArg Net.name hport, fun c hc => ?_⟩, rfl, rfl⟩
  refine Name.isRest_of_isIdentifier hident ?_
  rw [String.toList_append]
  exact List.mem_append_right _ hc

/-- **How labels are read from side files.** For every marker that can be installed and all labels
that are recorded with it, there is one measurement and one call for each label, in order.

A measurement has the tag, the name of the measurement, `expr`, the crossing with the number of the
label, `t` and two empty fields exactly if there is no comma in the label; each comma in the label
makes one field more. A call has the tag, the name of the measurement and the crossing as its
literals exactly if there is no quote and no backslash in the label. The lines of the files are
these lines exactly if there is no line feed in the labels. Whatever is in the label, the tag, the
label and its number can be told from each line. -/
theorem labels_read (h : marker tag m = .ok k m') (labels : List String) :
    (k.recorded labels).labels = labels ∧
    (k.recorded labels).measurements.length = labels.length ∧
    (k.recorded labels).outputCalls.length = labels.length ∧
    (∀ (i : Nat) (label : String), labels[i]? = some label → ∃ measurement call,
      (k.recorded labels).measurements[i]? = some measurement ∧
      (k.recorded labels).outputCalls[i]? = some call ∧
      fields measurement = tag :: (fields (tag ++ "_" ++ label)
        ++ ["expr", k.crossing (i + 1), "t", "", ""]) ∧
      (fields measurement = [tag, tag ++ "_" ++ label, "expr", k.crossing (i + 1), "t", "", ""]
        ↔ ',' ∉ label.toList) ∧
      ((fields measurement).length = 7 ↔ ',' ∉ label.toList) ∧
      (pieces? call = some ["axlAddOutputExpr(session ", tag, " ", tag ++ "_" ++ label, " ?expr ",
          k.crossing (i + 1), " ?plot t)"]
        ↔ '"' ∉ label.toList ∧ '\\' ∉ label.toList)) ∧
    (labels ≠ [] →
      (lines (endLines (k.recorded labels).measurements) = (k.recorded labels).measurements
        ↔ ∀ label ∈ labels, '\n' ∉ label.toList) ∧
      (lines (endLines (k.recorded labels).outputCalls) = (k.recorded labels).outputCalls
        ↔ ∀ label ∈ labels, '\n' ∉ label.toList)) ∧
    ∀ (tag' : String) (m₁ m₁' : Module) (k' : Marker), marker tag' m₁ = .ok k' m₁' →
      ∀ (label label' : String) (n n' : Nat),
        (k.measurement label n = k'.measurement label' n' →
          tag = tag' ∧ label = label' ∧ n = n') ∧
        (k.outputCall label n = k'.outputCall label' n' →
          tag = tag' ∧ label = label' ∧ n = n') := by
  obtain ⟨hk, htag, hlabels⟩ := marker_apt h
  have hrecorded : k.recorded labels = { k with labels } := by
    rw [k.recorded_eq, hlabels, List.nil_append]
  rw [hrecorded]
  have happ : Marker.Apt { k with labels } := ⟨hk.port, hk.tag⟩
  refine ⟨rfl, ?_, ?_, fun i label hlabel => ?_, fun hne => ⟨?_, ?_⟩, ?_⟩
  · simp [Marker.measurements, Marker.numbered]
  · simp [Marker.outputCalls, Marker.numbered]
  · subst htag
    refine ⟨_, _, Marker.measurements_getElem? hlabel, Marker.outputCalls_getElem? hlabel,
      happ.fields_measurement label (i + 1), (happ.fields_measurement_iff label (i + 1)).1,
      (happ.fields_measurement_iff label (i + 1)).2, happ.pieces?_outputCall label (i + 1)⟩
  · refine Marker.lines_numbered hne (fun label n => ?_)
      fun label n => happ.lineFeed_mem_measurement
    rw [Marker.getLast?_measurement]
    decide
  · refine Marker.lines_numbered hne (fun label n => ?_) fun label n => happ.lineFeed_mem_outputCall
    rw [Marker.getLast?_outputCall]
    decide
  · intro tag' m₁ m₁' k' h' label label' n n'
    obtain ⟨hk', htag', -⟩ := marker_apt h'
    rw [← htag, ← htag']
    exact ⟨hk.measurement_inj hk', hk.outputCall_inj hk'⟩

/-- The side files of a marker with two labels, one of which has a blank in it. -/
theorem labels_read_twice :
    ∃ m m' k, Module.new? .standard "" "bench" = .ok m ∧ marker "P" m = .ok k m' ∧
      (∃ call, (k.recorded ["A", "ramp up"]).outputCalls[1]? = some call ∧
        pieces? call = some ["axlAddOutputExpr(session ", "P", " ", "P_ramp up", " ?expr ",
          k.crossing 2, " ?plot t)"]) ∧
      ∃ measurement, (k.recorded ["A", "ramp up"]).measurements[1]? = some measurement ∧
        fields measurement = ["P", "P_ramp up", "expr", k.crossing 2, "t", "", ""] := by
  obtain ⟨m, hm⟩ : ∃ m, Module.new? .standard "" "bench" = .ok m := ⟨_, rfl⟩
  obtain ⟨m', hk⟩ : ∃ m', marker "P" m = .ok (.installed "P") m' := by
    rw [← value?_eq_some, eq_of_new? hm]
    rfl
  obtain ⟨-, -, -, hlines, -⟩ := labels_read hk ["A", "ramp up"]
  obtain ⟨measurement, call, hmeasurement, hcall, -, hfields, -, hpieces⟩ := hlines 1 "ramp up" rfl
  exact ⟨m, m', _, hm, hk, ⟨call, hcall, hpieces.mpr (by decide)⟩,
    measurement, hmeasurement, hfields.mpr (by decide)⟩

/-- **Quotes in a label** end the literal that the label is copied to: the call for it has four
literals and not three, none of which is the name of the measurement. -/
theorem label_divides_call :
    ∃ m m' k, Module.new? .standard "" "dut" = .ok m ∧ marker "P" m = .ok k m' ∧
      (k.recorded ["say \"hi\""]).outputCalls.map pieces? = [some ["axlAddOutputExpr(session ", "P",
        " ", "P_say ", "hi", "", " ?expr ",
        "cross(getData(\"/MARK_P\" ?result \"tran\") 0.5 1 \"either\" nil nil)", " ?plot t)"]] := by
  obtain ⟨m, hm⟩ : ∃ m, Module.new? .standard "" "dut" = .ok m := ⟨_, rfl⟩
  obtain ⟨m', hk⟩ : ∃ m', marker "P" m = .ok (.installed "P") m' := by
    rw [← value?_eq_some, eq_of_new? hm]
    rfl
  exact ⟨m, m', _, hm, hk, by decide +kernel⟩

end Module

end Stimulus

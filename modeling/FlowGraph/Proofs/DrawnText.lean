import FlowGraph.Drawing
import Mathlib.Data.List.Basic

/-! # Drawings are well formed

A drawing has a line for each block and for each edge, whatever text the names, operators, literals
and the title are made of.  A label is put together from escaped text, from line ends that are
written as two characters, and from the marks between the values of a note.  Each of these pieces is
`Sealed`: a reader of quoted text gets from its start to its end without meeting a closing quote and
without a backslash left over, and it holds no line end.  Pieces that are sealed make a sealed
label, and a sealed label is closed by the quote behind it and by no other.
-/
namespace FlowGraph
namespace Drawing

/-! ### Reading quoted text -/

/-- **The text of a quoted string**, read from behind its opening quote, and what follows the
closing one.  A backslash takes the next character with it. -/
def readQuoted : List Char → Option (List Char × List Char)
  | [] => none
  | '"' :: cs => some ([], cs)
  | '\\' :: c :: cs => (readQuoted cs).map fun p => ('\\' :: c :: p.1, p.2)
  | c :: cs => (readQuoted cs).map fun p => (c :: p.1, p.2)

/-- **What an escaped text stands for.** -/
def unescape : List Char → List Char
  | [] => []
  | '\\' :: 'n' :: cs => '\n' :: unescape cs
  | '\\' :: c :: cs => c :: unescape cs
  | c :: cs => c :: unescape cs

/-- **The quoted label of a line**, read from the first quote of the line.  Behind the label the
statement ends. -/
def labelOf? (line : List Char) : Option (List Char) :=
  match line.dropWhile (· ≠ '"') with
  | [] => none
  | _ :: cs =>
    match readQuoted cs with
    | some (label, [']', ';']) => some label
    | _ => none

/-! ### Sealed text -/

/-- **A piece of a label**: a reader of quoted text passes over it as a whole, and it does not end
the line. -/
structure Sealed (s : String) : Prop where
  read : ∀ rest, readQuoted (s.toList ++ rest) =
    (readQuoted rest).map fun p => (s.toList ++ p.1, p.2)
  unbroken : '\n' ∉ s.toList

namespace Sealed

theorem empty : Sealed "" where
  read rest := by cases h : readQuoted rest <;> simp [h]
  unbroken := by simp

theorem append {s t : String} (hs : Sealed s) (ht : Sealed t) : Sealed (s ++ t) where
  read rest := by
    rw [String.toList_append, List.append_assoc, hs.read, ht.read]
    cases readQuoted rest <;> simp
  unbroken := by
    rw [String.toList_append, List.mem_append]
    exact not_or.mpr ⟨hs.unbroken, ht.unbroken⟩

theorem join {ss : List String} (h : ∀ s ∈ ss, Sealed s) : Sealed (String.join ss) := by
  induction ss with
  | nil => exact empty
  | cons s ss ih =>
    obtain ⟨hs, hss⟩ := List.forall_mem_cons.mp h
    rw [String.join_cons]
    exact hs.append (ih hss)

/-- A character that a reader of quoted text takes as it is. -/
theorem singleton {c : Char} (hquote : c ≠ '"') (hslash : c ≠ '\\') (hline : c ≠ '\n') :
    Sealed (String.ofList [c]) where
  read rest := by
    rw [String.toList_ofList, List.singleton_append, readQuoted]
    · rfl
    · exact hquote
    · intro _ _ hc
      exact absurd hc hslash
  unbroken := by simpa using Ne.symm hline

/-- A backslash with the character that it takes along. -/
theorem pair {c : Char} (hline : c ≠ '\n') : Sealed (String.ofList ['\\', c]) where
  read rest := by
    rw [String.toList_ofList, List.cons_append, List.singleton_append, readQuoted]
    rfl
  unbroken := by simpa using Ne.symm hline

/-- Text without quotes, backslashes and line ends. -/
theorem of_plain {s : String} (h : ∀ c ∈ s.toList, c ≠ '"' ∧ c ≠ '\\' ∧ c ≠ '\n') : Sealed s := by
  suffices hlist : ∀ cs : List Char, (∀ c ∈ cs, c ≠ '"' ∧ c ≠ '\\' ∧ c ≠ '\n') →
      Sealed (String.ofList cs) by
    simpa using hlist s.toList h
  intro cs hcs
  induction cs with
  | nil => exact empty
  | cons c cs ih =>
    obtain ⟨⟨hquote, hslash, hline⟩, hrest⟩ := List.forall_mem_cons.mp hcs
    rw [← List.singleton_append, String.ofList_append]
    exact (singleton hquote hslash hline).append (ih hrest)

theorem escape (c : Char) : Sealed (String.ofList (Drawing.escape c)) := by
  unfold Drawing.escape
  split_ifs with hquote hslash hline
  · exact pair (by decide)
  · exact pair (by decide)
  · exact pair (by decide)
  · exact singleton hquote hslash hline

/-- **Escaped text**, whatever the text is. -/
theorem escaped (s : String) : Sealed (Drawing.escaped s) := by
  unfold Drawing.escaped
  induction s.toList with
  | nil => exact empty
  | cons c cs ih =>
    rw [List.flatMap_cons, String.ofList_append]
    exact (escape c).append ih

/-- A line end within a label. -/
theorem lineEnd : Sealed "\\n" := pair (c := 'n') (by decide)

theorem wrap {line : String} (h : Sealed line) (count : Nat) (vs : List String) :
    Sealed (Drawing.wrap count line vs) := by
  induction vs generalizing count line with
  | nil => exact h
  | cons v vs ih =>
    have hcomma := h.append (of_plain (s := ", ") (by simp))
    rw [Drawing.wrap]
    split
    · exact ih ((hcomma.append lineEnd).append (escaped v)) _
    · exact ih (hcomma.append (escaped v)) _

theorem noteLine (note : Note) : Sealed (Drawing.noteLine note) := by
  obtain ⟨name, _ | ⟨v, vs⟩⟩ := note
  · exact empty
  · have hopen := ((escaped name).append (of_plain (s := " = [") (by simp))).append (escaped v)
    exact (hopen.wrap 1 vs).append ((of_plain (s := "]") (by simp)).append lineEnd)

theorem region (notes : List Note) : Sealed (Drawing.region notes) := by
  refine join fun line hline => ?_
  obtain ⟨note, -, rfl⟩ := List.mem_map.mp hline
  exact noteLine note

/-- **The label of a node**, whatever is noted about the block. -/
theorem nodeLabel (b : Block) (notes : Notes) : Sealed (Drawing.nodeLabel b notes) := by
  have hhead : Sealed (if (Drawing.region notes.head).isEmpty then "" else "\\n") := by
    split
    · exact empty
    · exact lineEnd
  have hgap : Sealed (if (Drawing.region notes.block).isEmpty && (Drawing.region notes.tail).isEmpty
      then "" else "\\n\\n") := by
    split
    · exact empty
    · exact lineEnd.append lineEnd
  exact (((((region notes.head).append hhead).append (escaped (source b))).append hgap).append
    (region notes.block)).append (region notes.tail)

end Sealed

/-! ### Undoing escapes -/

theorem unescape_escape (c : Char) (cs : List Char) :
    unescape (escape c ++ cs) = c :: unescape cs := by
  unfold escape
  split_ifs with hquote hslash hline
  · subst hquote; rfl
  · subst hslash; rfl
  · subst hline; rfl
  · rw [List.singleton_append, unescape]
    · intro _ hc
      exact absurd hc hslash
    · intro _ _ hc
      exact absurd hc hslash

/-- **Undoing escapes** gives back any text. -/
theorem unescape_escaped (s : String) : unescape (escaped s).toList = s.toList := by
  rw [escaped, String.toList_ofList]
  induction s.toList with
  | nil => rfl
  | cons c cs ih => rw [List.flatMap_cons, unescape_escape, ih]

/-- What a node shows of a block: its phi functions and what it does, with line ends between them.
-/
theorem source_eq_intercalate (b : Block) :
    source b =
      "\n".intercalate ((b.phis.toList.map fun (lhs, p) => p.text lhs) ++ [b.kind.text]) := by
  unfold source
  induction b.phis.toList with
  | nil => simp
  | cons x xs ih =>
    rw [List.map_cons, String.join_cons, List.map_cons, List.cons_append,
      String.intercalate_cons_of_ne_nil (by simp), ← ih, String.append_assoc]

/-! ### Lines -/

/-- The line of a statement with a quoted label. -/
def labelled (before label : String) : String := before ++ "\"" ++ label ++ "\"];"

theorem labelOf?_labelled {before label : String} (hbefore : '"' ∉ before.toList)
    (hlabel : Sealed label) : labelOf? (labelled before label).toList = some label.toList := by
  have hread : readQuoted (label.toList ++ ['"', ']', ';']) = some (label.toList, [']', ';']) := by
    rw [hlabel.read]
    simp [readQuoted]
  have hskip : (labelled before label).toList.dropWhile (· ≠ '"') =
      '"' :: (label.toList ++ ['"', ']', ';']) := by
    have htext : (labelled before label).toList =
        before.toList ++ '"' :: (label.toList ++ ['"', ']', ';']) := by simp [labelled]
    rw [htext, List.dropWhile_append_of_pos, List.dropWhile_cons_of_neg (by simp)]
    rintro c hc
    exact decide_eq_true (ne_of_mem_of_not_mem hc hbefore)
  simp only [labelOf?, hskip, hread]

/-- **A line of a drawing**: it is one line, and if it has a quote then it has a quoted label that
ends in front of the end of the statement. -/
structure Orderly (line : String) : Prop where
  unbroken : '\n' ∉ line.toList
  closed : '"' ∈ line.toList → ∃ label, labelOf? line.toList = some label

theorem Orderly.of_plain {line : String} (h : ∀ c ∈ line.toList, c ≠ '\n' ∧ c ≠ '"') :
    Orderly line where
  unbroken hc := (h _ hc).1 rfl
  closed hc := absurd rfl (h _ hc).2

theorem Orderly.labelled {before label : String} (hbefore : ∀ c ∈ before.toList, c ≠ '\n' ∧ c ≠ '"')
    (hlabel : Sealed label) : Orderly (labelled before label) where
  unbroken := by
    simp only [Drawing.labelled, String.toList_append, List.mem_append, not_or]
    exact ⟨⟨⟨fun hc => (hbefore _ hc).1 rfl, by decide⟩, hlabel.unbroken⟩, by decide⟩
  closed _ := ⟨_, labelOf?_labelled (fun hc => (hbefore _ hc).2 rfl) hlabel⟩

theorem plain_repr (n : Nat) : ∀ c ∈ (Nat.repr n).toList, c ≠ '\n' ∧ c ≠ '"' := by
  intro c hc
  rw [Nat.repr_eq_ofList_toDigits, String.toList_ofList] at hc
  have hdigit := Nat.isDigit_of_mem_toDigits (by decide) (by decide) hc
  constructor <;> rintro rfl <;> exact absurd hdigit (by decide)

/-- The line of a node that has no attributes of its own, without its end. -/
def nodeLine (b : Block) (notes : Notes) : String :=
  labelled (Nat.repr b.id.slot ++ "[label=") (nodeLabel b notes)

/-- The line of an edge without its end. -/
def edgeLine (e : Edge) : String :=
  Nat.repr e.source.slot ++ "->" ++ Nat.repr e.target.slot ++ edgeLabel e.direction ++ ";"

/-- The line of the title without its end. -/
def titleLine (name title : String) : String :=
  labelled "graph [label=" (escaped (name ++ " - " ++ title))

theorem node_eq {notes : Notes} (h : notes.attributes = []) (b : Block) :
    node b notes = nodeLine b notes ++ "\n" := by
  simp [node, nodeLine, labelled, h, ← String.toList_inj]

theorem edge_eq (e : Edge) : edge e = edgeLine e ++ "\n" := by
  simp [edge, edgeLine, ← String.toList_inj]

theorem plain_nodeFront (n : Nat) :
    ∀ c ∈ (Nat.repr n ++ "[label=").toList, c ≠ '\n' ∧ c ≠ '"' := by
  intro c hc
  rw [String.toList_append, List.mem_append] at hc
  exact hc.elim (plain_repr n c) ((by simp : ∀ c ∈ "[label=".toList, c ≠ '\n' ∧ c ≠ '"') c)

theorem orderly_nodeLine (b : Block) (notes : Notes) : Orderly (nodeLine b notes) :=
  .labelled (plain_nodeFront _) (.nodeLabel b notes)

theorem labelOf?_nodeLine (b : Block) (notes : Notes) :
    labelOf? (nodeLine b notes).toList = some (nodeLabel b notes).toList :=
  labelOf?_labelled (fun hquote => (plain_nodeFront _ _ hquote).2 rfl) (.nodeLabel b notes)

theorem orderly_edgeLine (e : Edge) : Orderly (edgeLine e) := by
  refine .of_plain fun c hc => ?_
  have hlabel : ∀ c ∈ (edgeLabel e.direction).toList, c ≠ '\n' ∧ c ≠ '"' := by
    cases e.direction <;> simp [edgeLabel]
  simp only [edgeLine, String.toList_append, List.mem_append] at hc
  rcases hc with (((hc | hc) | hc) | hc) | hc
  · exact plain_repr _ c hc
  · exact (by simp : ∀ c ∈ "->".toList, c ≠ '\n' ∧ c ≠ '"') c hc
  · exact plain_repr _ c hc
  · exact hlabel c hc
  · exact (by simp : ∀ c ∈ ";".toList, c ≠ '\n' ∧ c ≠ '"') c hc

/-- **The lines of a drawing**, without their ends. -/
def lines (g : Graph) (title : String) (notes : Annotation) : List String :=
  ["digraph G \x7b", "graph [outputorder=edgesfirst];", titleLine g.name title] ++
    g.liveBlocks.map (fun b => nodeLine b (notes b.id)) ++
    g.liveEdges.map (fun (_, e) => edgeLine e) ++ ["\x7d"]

variable {g : Graph} {title : String} {notes : Annotation}

theorem drawing_eq_join (hnotes : ∀ b, (notes b).attributes = []) :
    g.drawing title notes = String.join ((lines g title notes).map (· ++ "\n")) := by
  have hfront : String.join (["digraph G \x7b", "graph [outputorder=edgesfirst];",
      titleLine g.name title].map (· ++ "\n")) = "digraph G \x7b\n" ++
        "graph [outputorder=edgesfirst];\n" ++ "graph [label=\"" ++
          escaped (g.name ++ " - " ++ title) ++ "\"];\n" := by
    simp [titleLine, labelled, ← String.toList_inj]
  have hnodes : (g.liveBlocks.map fun b => nodeLine b (notes b.id)).map (· ++ "\n") =
      g.liveBlocks.map fun b => node b (notes b.id) := by
    simp [node_eq (hnotes _)]
  have hedges : (g.liveEdges.map fun (_, e) => edgeLine e).map (· ++ "\n") =
      g.liveEdges.map fun (_, e) => edge e := by
    simp [edge_eq]
  rw [lines, List.map_append, List.map_append, List.map_append, String.join_append,
    String.join_append, String.join_append, hfront, hnodes, hedges]
  rfl

theorem orderly_lines {line : String} (h : line ∈ lines g title notes) : Orderly line := by
  simp only [lines, List.mem_append, List.mem_cons, List.mem_map, List.not_mem_nil, or_false] at h
  rcases h with (((rfl | rfl | rfl) | ⟨b, -, rfl⟩) | ⟨x, -, rfl⟩) | rfl
  · exact .of_plain (by simp)
  · exact .of_plain (by simp)
  · exact .labelled (by simp) (.escaped _)
  · exact orderly_nodeLine ..
  · exact orderly_edgeLine ..
  · exact .of_plain (by simp)

theorem length_lines :
    (lines g title notes).length = 4 + g.liveBlocks.length + g.liveEdges.length := by
  simp only [lines, List.length_append, List.length_map, List.length_cons, List.length_nil]
  omega

/-- The nodes follow the title, in the order of their blocks. -/
theorem getElem?_lines {i : Nat} {b : Block} (h : g.liveBlocks[i]? = some b) :
    (lines g title notes)[3 + i]? = some (nodeLine b (notes b.id)) := by
  have hi : i < g.liveBlocks.length := (List.getElem?_eq_some_iff.mp h).1
  rw [lines, List.append_assoc, List.append_assoc, List.getElem?_append_right (by simp),
    List.getElem?_append_left (by simpa using hi)]
  simp [h]

/-- **The notes that are at hand without any made by a caller.** -/
inductive Offered : Annotation → Prop
  | plain : Offered plain
  | defUse (w : Web) : Offered (defUse w)

theorem Offered.attributes_eq_nil (h : Offered notes) (b : BlockId) :
    (notes b).attributes = [] := by
  cases h <;> rfl

/-- Without notes, the label of a node shows its block. -/
theorem nodeLabel_plain (b : Block) : nodeLabel b (plain b.id) = escaped (source b) := by
  simp [nodeLabel, plain, region]

end Drawing

namespace Graph

open Drawing

/-- **Drawings are well formed for any text.**  A drawing has a line for each block and each edge
and four lines more, and a line end behind each of them.  Where a line has a quoted label, a reader
of quoted text gets to the last quote of the line and not to an earlier one.  The line of a block is
such a line, and without notes its label is the escaped form of the phi functions of the block and
of what the block does, with line ends between them. -/
theorem drawing_wellFormed (g : Graph) (title : String) {notes : Annotation} (h : Offered notes) :
    ∃ lines : List String,
      g.drawing title notes = String.join (lines.map (· ++ "\n")) ∧
      lines.length = 4 + g.liveBlocks.length + g.liveEdges.length ∧
      (∀ line ∈ lines, '\n' ∉ line.toList ∧
        ('"' ∈ line.toList → ∃ label, labelOf? line.toList = some label)) ∧
      ∀ i b, g.liveBlocks[i]? = some b → ∃ line label, lines[3 + i]? = some line ∧
        labelOf? line.toList = some label ∧
        (notes = plain → unescape label = ("\n".intercalate
          ((b.phis.toList.map fun (lhs, p) => p.text lhs) ++ [b.kind.text])).toList) := by
  refine ⟨Drawing.lines g title notes, drawing_eq_join h.attributes_eq_nil, length_lines,
    fun line hline => ⟨(orderly_lines hline).unbroken, (orderly_lines hline).closed⟩,
    fun i b hb => ⟨_, _, getElem?_lines hb, labelOf?_nodeLine b (notes b.id), ?_⟩⟩
  rintro rfl
  rw [nodeLabel_plain, unescape_escaped, source_eq_intercalate]

/-- A graph with quotes, backslashes and line ends in names and literals. -/
def scribble : Graph where
  name := "\"f\\"
  blocks := #[
    some { id := ⟨0⟩, kind := .entry, succs := [⟨0⟩] },
    some { id := ⟨1⟩, kind := .exit, preds := [⟨2⟩] },
    none,
    some { id := ⟨3⟩,
           kind := .statement (.ret (.lit (.str "a\"b\\\n"))), preds := [⟨0⟩], succs := [⟨2⟩],
           phis := .ofList [("p\"", ⟨some 1, .ofList [(⟨0⟩, .plain "q\n")]⟩)] }]
  edges := #[some ⟨⟨0⟩, ⟨3⟩, .always⟩, none, some ⟨⟨3⟩, ⟨1⟩, .always⟩]

theorem drawing_wellFormed_scribble :
    (∃ lines : List String,
      scribble.drawing "\\" plain = String.join (lines.map (· ++ "\n")) ∧ lines.length = 9 ∧
        ∃ line label, lines[5]? = some line ∧ labelOf? line.toList = some label ∧
          unescape label = "p\"_1 = phi(e0: q\n)\nreturn \"a\\\"b\\\\\\n\";".toList) ∧
    ∃ lines : List String,
      scribble.drawing "\\" (defUse (.ofGraph scribble)) = String.join (lines.map (· ++ "\n")) ∧
        lines.length = 9 := by
  have hsize : 4 + scribble.liveBlocks.length + scribble.liveEdges.length = 9 := by decide
  obtain ⟨lines, htext, hlen, -, hnodes⟩ := scribble.drawing_wellFormed "\\" .plain
  obtain ⟨lines', htext', hlen', -, -⟩ :=
    scribble.drawing_wellFormed "\\" (.defUse (.ofGraph scribble))
  obtain ⟨line, label, hline, hlabel, hshown⟩ := hnodes 2 _ rfl
  exact ⟨⟨lines, htext, hlen.trans hsize, line, label, hline, hlabel,
    (hshown rfl).trans (by decide +kernel)⟩, lines', htext', hlen'.trans hsize⟩

end Graph
end FlowGraph

/-
# `SearchTree.Text.Layout` — a value written on one line, or spread over many

A `Layout` is a value's text in both forms at once, so that larger layouts are
put together from smaller ones without looking into them.

    one line     opening pad a, b pad closing
    spread       opening
                     a,
                     b,
                 closing

In the spread form every part stands on lines of its own, four blanks further
in than its block and followed by a comma.  A block without parts is written
closed in both forms.

The spread form is kept as lines and not as a text, so that a block can move its
parts further in.  `spread_append` and `spread_block` say what comes of it as a
text.
-/

namespace SearchTree

/-- A text in its two forms. -/
structure Layout where
  oneLine : String
  /-- The lines of the spread form. -/
  lines : List String
  lines_ne_nil : lines ≠ []

namespace Layout

/-- A text that is the same in both forms. -/
def word (s : String) : Layout := ⟨s, [s], List.cons_ne_nil s []⟩

/-- Lines that go on where other lines end. -/
def glue : List String → List String → List String
  | [], below => below
  | [s], [] => [s]
  | [s], t :: below => (s ++ t) :: below
  | s :: t :: rest, below => s :: glue (t :: rest) below

theorem glue_ne_nil {above : List String} (h : above ≠ []) (below : List String) :
    glue above below ≠ [] := by
  fun_cases glue above below with
  | case1 => exact absurd rfl h
  | case2 | case3 | case4 => exact List.cons_ne_nil _ _

/-- One text right after another. -/
protected def append (a b : Layout) : Layout :=
  ⟨a.oneLine ++ b.oneLine, glue a.lines b.lines, glue_ne_nil a.lines_ne_nil b.lines⟩

instance : Append Layout := ⟨Layout.append⟩

/-- The lines of a part in its block: further in, and a comma after the last. -/
def asPart (a : Layout) : List String := (glue a.lines [","]).map ("    " ++ ·)

/-- Parts between an opening and a closing, which `pad` keeps apart from them on one line. -/
def block (opening pad closing : String) : List Layout → Layout
  | [] => word (opening ++ closing)
  | parts =>
      ⟨opening ++ pad ++ ", ".intercalate (parts.map (·.oneLine)) ++ pad ++ closing,
        opening :: (parts.flatMap asPart ++ [closing]), List.cons_ne_nil _ _⟩

/-- A part with its name or its key before it. -/
def labelled (label value : Layout) : Layout := label ++ word ": " ++ value

/-- The spread form as a text. -/
def spread (a : Layout) : String := "\n".intercalate a.lines

/-- The spread form with each of its lines further in. -/
def indented (a : Layout) : String := "\n".intercalate (a.lines.map ("    " ++ ·))

/-- The text in the form asked for. -/
def render (a : Layout) (onLines : Bool) : String := if onLines then a.spread else a.oneLine

/-! ## The spread form as a text -/

/-- Lines that are glued together make one text after the other. -/
theorem intercalate_glue {above below : List String} (ha : above ≠ []) (hb : below ≠ []) :
    "\n".intercalate (glue above below) = "\n".intercalate above ++ "\n".intercalate below := by
  fun_induction glue above below with
  | case1 => exact absurd rfl ha
  | case2 => exact absurd rfl hb
  | case3 s t below => rw [String.intercalate_cons_append, String.intercalate_singleton]
  | case4 s t rest below ih =>
      rw [String.intercalate_cons_of_ne_nil (glue_ne_nil (List.cons_ne_nil t rest) below),
        ih (List.cons_ne_nil t rest) hb, String.intercalate_cons_cons]
      simp only [String.append_assoc]

theorem spread_append (a b : Layout) : (a ++ b).spread = a.spread ++ b.spread :=
  intercalate_glue a.lines_ne_nil b.lines_ne_nil

/-- The comma ends the last line, and so it makes no difference that it is put there before the lines
are moved further in. -/
theorem map_indent_glue {lines : List String} (h : lines ≠ []) :
    (glue lines [","]).map ("    " ++ ·) = glue (lines.map ("    " ++ ·)) [","] := by
  induction lines with
  | nil => exact absurd rfl h
  | cons s rest ih =>
      cases rest with
      | nil => simp [glue, String.append_assoc]
      | cons t rest => simp [glue, ih]

theorem intercalate_asPart (a : Layout) : "\n".intercalate a.asPart = a.indented ++ "," := by
  have hlines : a.lines.map ("    " ++ ·) ≠ [] := by simpa using a.lines_ne_nil
  rw [asPart, map_indent_glue a.lines_ne_nil, intercalate_glue hlines (List.cons_ne_nil _ _),
    String.intercalate_singleton]
  rfl

theorem asPart_ne_nil (a : Layout) : a.asPart ≠ [] := by
  simpa [asPart] using glue_ne_nil a.lines_ne_nil [","]

/-- The lines of parts that follow one another. -/
theorem intercalate_flatMap_asPart (parts : List Layout) (closing : String) :
    "\n".intercalate (parts.flatMap asPart ++ [closing])
      = "\n".intercalate (parts.map (fun a => a.indented ++ ",") ++ [closing]) := by
  induction parts with
  | nil => rfl
  | cons a parts ih =>
      rw [List.flatMap_cons, List.append_assoc, String.intercalate_append_of_ne_nil a.asPart_ne_nil
        (by simp), ih, intercalate_asPart, List.map_cons, List.cons_append,
        String.intercalate_cons_of_ne_nil (by simp)]

/-- A block with parts is spread over the line of its opening, the lines of each part, further in
and with a comma at their end, and the line of its closing. -/
theorem spread_block (opening pad closing : String) {parts : List Layout} (h : parts ≠ []) :
    (block opening pad closing parts).spread
      = "\n".intercalate (opening :: (parts.map (fun a => a.indented ++ ",") ++ [closing])) := by
  cases parts with
  | nil => exact absurd rfl h
  | cons a parts =>
      show "\n".intercalate (opening :: ((a :: parts).flatMap asPart ++ [closing])) = _
      rw [String.intercalate_cons_of_ne_nil (by simp), intercalate_flatMap_asPart,
        String.intercalate_cons_of_ne_nil (by simp)]

example : (block "[" "" "]" [word "1", block "(" "" ")" [word "2"]]).spread
    = "[\n    1,\n    (\n        2,\n    ),\n]" := by decide

end Layout

end SearchTree

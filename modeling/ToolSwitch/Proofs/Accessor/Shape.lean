import ToolSwitch.Accessor
import ToolSwitch.Proofs.CSharp.Lines

/-!
What of an accessor is code and what is literal.  The code is settled by the kind of the property,
the choice of getters and the number of an enum's choices; the rest of what a schema says is read
back from string literals.
-/

namespace ToolSwitch

open ToolSwitch.Text ToolSwitch.CSharp ToolSwitch.Schema

def Schema.Switches.choices : Switches → List Choice
  | .enum choices => choices
  | .stringList _ | .bool _ _ | .int _ => []

namespace Accessor

/-- The lines that tell a switch what to pass to the tool, with nothing between their quotes.  The
table of an enum is announced with as many rows as follow. -/
def setupShape (rows : Nat) : Kind → List String
  | .stringList => ["            toolSwitch.SwitchValue = \"\";"]
  | .bool =>
    ["            toolSwitch.SwitchValue = \"\";",
      "            toolSwitch.ReverseSwitchValue = \"\";"]
  | .int =>
    ["            if (ValidateInteger(\"\", int.MinValue, int.MaxValue, value))",
      "            \x7b",
      "                toolSwitch.IsValid = true;",
      "            \x7d",
      "            else",
      "            \x7b",
      "                toolSwitch.IsValid = false;",
      "            \x7d",
      "            toolSwitch.SwitchValue = \"\";"]
  | .enum =>
    ["            string[][] switchMap = new string[" ++ toString rows ++ "][] \x7b",
      ",".intercalate (List.replicate rows "new string[2] \x7b \"\", \"\" \x7d"),
      "\x7d",
      ";",
      "            toolSwitch.SwitchValue = ReadSwitchMap(\"\", switchMap, value);"]

/-- The lines of an accessor behind the first, with nothing between their quotes. -/
def shape (getters : Getters) (kind : Kind) (rows : Nat) : List String :=
  ["    \x7b",
    "        get",
    "        \x7b",
    "            if (IsPropertySet(\"\"))",
    "            \x7b",
    "                return base.ActiveToolSwitches[\"\"]." ++ getterMember getters kind ++ ";",
    "            \x7d",
    "",
    "            return " ++ getterDefault getters kind ++ ";",
    "        \x7d",
    "        set",
    "        \x7b",
    "            base.ActiveToolSwitches.Remove(\"\");",
    "            ToolSwitch toolSwitch = new ToolSwitch(ToolSwitchType." ++ switchType kind ++ ");",
    "            toolSwitch.DisplayName = \"\";",
    "            toolSwitch.Description = \"\";",
    "            toolSwitch.ArgumentRelationList = new ArrayList();"] ++
  setupShape rows kind ++
  ["            toolSwitch.Name = \"\";",
    "            toolSwitch." ++ payload kind ++ " = value;",
    "            base.ActiveToolSwitches.Add(\"\", toolSwitch);",
    "            AddActiveSwitchToolValue(toolSwitch);",
    "        \x7d",
    "    \x7d"]

/-- The texts that the statements for a property's switches hold. -/
def setupTexts (lead : String) (property : Property) : List String :=
  match property.switches with
  | .stringList switch => [composeSwitch lead switch]
  | .bool switch reverse => [composeSwitch lead switch, composeSwitch lead reverse]
  | .int switch => [property.title, composeSwitch lead switch]
  | .enum choices =>
    (choices.flatMap fun choice => [choice.title, composeSwitch lead choice.switch]) ++
      [property.title]

/-- The texts that an accessor holds behind its first line. -/
def texts (lead : String) (property : Property) : List String :=
  [property.title, property.title, property.title,
    property.info.displayName.getD "", property.info.description.getD ""] ++
  setupTexts lead property ++ [property.title, property.title]

section

variable (getters : Getters) (lead : String) (property : Property)

theorem choiceTable_blank (choices : List Choice) :
    (choiceTable lead choices).map Line.blank = (setupShape choices.length .enum).take 4 := by
  have hr : (choices.map (choiceRow lead)).map Line.blank =
      List.replicate choices.length "new string[2] \x7b \"\", \"\" \x7d" := by
    rw [List.map_map, ← List.map_const']
    rfl
  have ha : Line.blank
      (Line.indent 3 [.code s!"string[][] switchMap = new string[{choices.length}][] \x7b"]) =
      "            string[][] switchMap = new string[" ++ toString choices.length ++ "][] \x7b" := by
    simp only [Line.blank, Line.indent, List.map_cons, List.map_nil, Piece.blank,
      String.join_cons, String.join_nil, String.append_empty, ← String.append_assoc]
    rfl
  rw [choiceTable, List.map_cons, List.map_cons, Line.blank_intercalate, hr, ha]
  rfl

theorem setup_blank :
    (setup lead property).map Line.blank =
      setupShape property.switches.choices.length property.kind := by
  rw [setup, Property.kind]
  cases property.switches with
  | stringList | bool | int => rfl
  | enum choices =>
    rw [List.map_append, choiceTable_blank]
    rfl

theorem body_blank :
    (body getters lead property).map Line.blank =
      shape getters property.kind property.switches.choices.length := by
  simp only [body, getter, setter, shape, assign, List.map_append, setup_blank, List.append_assoc,
    List.map_cons, List.map_nil, Line.blank, Line.indent, Piece.blank, String.join_cons,
    String.join_nil, String.append_empty, ← String.append_assoc]
  rfl

theorem choiceTable_values (choices : List Choice) :
    (choiceTable lead choices).flatMap Line.values =
      choices.flatMap fun choice => [choice.title, composeSwitch lead choice.switch] := by
  rw [choiceTable, List.flatMap_cons, List.flatMap_cons, Line.values_intercalate, List.flatMap_map]
  exact List.append_nil _

theorem setup_values : (setup lead property).flatMap Line.values = setupTexts lead property := by
  rw [setup, setupTexts]
  cases property.switches with
  | stringList | bool | int => rfl
  | enum choices =>
    rw [List.flatMap_append, choiceTable_values]
    rfl

theorem body_values :
    (body getters lead property).flatMap Line.values = texts lead property := by
  simp only [body, setter, texts, List.flatMap_append, setup_values, List.append_assoc]
  rfl

theorem digits_isPlain (n : Nat) : (Piece.code n.repr).isPlain := by
  rw [Piece.isPlain, List.all_eq_true, Nat.toList_repr]
  intro c hc
  have hd : c.isDigit := Nat.isDigit_of_mem_toDigits (by decide) (by decide) hc
  rw [Bool.and_eq_true, bne_iff_ne, bne_iff_ne]
  constructor <;> rintro rfl <;> cases hd

theorem words_isPlain (kind : Kind) :
    (Piece.code (getterMember getters kind)).isPlain ∧
      (Piece.code (getterDefault getters kind)).isPlain ∧
      (Piece.code (switchType kind)).isPlain ∧ (Piece.code (payload kind)).isPlain := by
  cases getters <;> cases kind <;> exact ⟨rfl, rfl, rfl, rfl⟩

theorem choiceTable_isPlain (choices : List Choice) :
    (choiceTable lead choices).all Line.isPlain := by
  have hr : ([Piece.code ","].intercalate (choices.map (choiceRow lead))).all Piece.isPlain :=
    Line.isPlain_intercalate "," _ rfl (List.all_eq_true.2 fun line hl => by
      obtain ⟨choice, -, rfl⟩ := List.mem_map.1 hl
      rfl)
  simp only [choiceTable, Line.indent, Line.isPlain, List.all_cons, List.all_nil, hr,
    ToString.toString, Piece.isPlain_append, digits_isPlain]
  rfl

theorem setup_isPlain : (setup lead property).all Line.isPlain := by
  rw [setup]
  cases property.switches with
  | stringList | bool | int =>
    simp only [assign, Line.indent, Line.isPlain, List.all_cons, List.all_nil,
      Piece.isPlain_literal]
    decide +kernel
  | enum choices =>
    rw [List.all_append, choiceTable_isPlain]
    rfl

theorem body_isPlain : (body getters lead property).all Line.isPlain := by
  obtain ⟨hm, hd, ht, hp⟩ := words_isPlain getters property.kind
  simp only [body, getter, setter, assign, Line.indent, List.all_append, setup_isPlain]
  simp only [Line.isPlain, List.all_cons, List.all_nil, ToString.toString, Piece.isPlain_append,
    Piece.isPlain_literal, hm, hd, ht, hp]
  decide +kernel

/-- What an accessor is taken apart into behind its first line. -/
def lexemes : List Source.Lexeme :=
  (body getters lead property).flatMap fun line => .code '\n' :: line.lexemes

theorem read_body :
    Source.read (Line.below (body getters lead property)) = some (lexemes getters lead property) :=
  Line.read_below (body_isPlain getters lead property)

theorem literals_lexemes :
    Source.literals (lexemes getters lead property) = (texts lead property).map Piece.inside := by
  have hl : ∀ line : Line, (Source.Lexeme.code '\n' :: line.lexemes).filterMap
      Source.Lexeme.inside? = line.values.map Piece.inside := fun line =>
    (List.filterMap_cons_none rfl).trans line.literals_lexemes
  rw [← body_values getters, lexemes, Source.literals, List.filterMap_flatMap, List.map_flatMap]
  simp only [hl]

theorem blank_lexemes :
    Source.blank (lexemes getters lead property) =
      (shape getters property.kind property.switches.choices.length).flatMap fun line =>
        '\n' :: line.toList := by
  have hl : ∀ line : Line, (Source.Lexeme.code '\n' :: line.lexemes).flatMap
      Source.Lexeme.blank = '\n' :: line.blank.toList := fun line =>
    congrArg ('\n' :: ·) line.blank_lexemes
  rw [← body_blank getters lead, lexemes, Source.blank, List.flatMap_assoc, List.flatMap_map]
  simp only [hl]

/-- An accessor behind the identifier. -/
def rest : String :=
  String.join ((body getters lead property).map fun line => "\n" ++ line.text)

theorem toList_rest :
    (rest getters lead property).toList = Line.below (body getters lead property) := by
  rw [rest, String.toList_join, List.flatMap_map, Line.below]
  congr 1
  funext line
  rw [String.toList_append]
  rfl

theorem render_eq :
    render getters lead property =
      "    public virtual " ++ valueType property.kind ++ " " ++ property.title ++
        rest getters lead property :=
  rfl

/-- Nothing that a schema says gets out of the literals of an accessor, except for the identifier in
the first line.  The source behind it is read to its end, outside literals; the code in it is settled
by the kind, the choice of getters and the number of choices; and its literals have the values that
the schema gives, in order. -/
theorem render_reads :
    ∃ rest lexemes,
      render getters lead property =
        "    public virtual " ++ valueType property.kind ++ " " ++ property.title ++ rest ∧
      Source.read rest.toList = some lexemes ∧
      (∀ inside ∈ Source.literals lexemes, ∀ c ∈ inside.raw, isLineEnd c = false) ∧
      String.ofList (Source.blank lexemes) =
        String.join ((shape getters property.kind property.switches.choices.length).map ("\n" ++ ·)) ∧
      (Source.literals lexemes).map Source.Inside.value =
        (texts lead property).map fun text => Utf16.encode text.toList := by
  have hread : Source.read (rest getters lead property).toList =
      some (lexemes getters lead property) := by
    rw [toList_rest, read_body]
  have hraw : ∀ inside ∈ Source.literals (lexemes getters lead property),
      ∀ c ∈ inside.raw, isLineEnd c = false := by
    intro inside hi c hc
    rw [literals_lexemes] at hi
    obtain ⟨text, -, rfl⟩ := List.mem_map.1 hi
    have hu := Literal.not_isUnprintable_of_mem_escape hc
    rw [← Bool.not_eq_true]
    intro he
    rw [Literal.isUnprintable_of_isLineEnd he] at hu
    cases hu
  have hblank : String.ofList (Source.blank (lexemes getters lead property)) =
      String.join ((shape getters property.kind property.switches.choices.length).map
        ("\n" ++ ·)) := by
    rw [blank_lexemes, ← String.toList_inj, String.toList_ofList, String.toList_join,
      List.flatMap_map]
    simp
  have hvalues : (Source.literals (lexemes getters lead property)).map Source.Inside.value =
      (texts lead property).map fun text => Utf16.encode text.toList := by
    rw [literals_lexemes, List.map_map]
    rfl
  exact ⟨_, _, render_eq getters lead property, hread, hraw, hblank, hvalues⟩

end

end Accessor

end ToolSwitch

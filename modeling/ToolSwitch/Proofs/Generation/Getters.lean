import ToolSwitch.Proofs.Generation.Blocks

/-!
What the choice of getters decides: in each accessor the member that the getter reads and the
default that it returns, and nothing around them.  The accessor is put together from what stands in
front of the two, between them and behind them, so identifiers that look like getters make no
difference.
-/

namespace ToolSwitch

open ToolSwitch.Text ToolSwitch.CSharp ToolSwitch.Schema

theorem CSharp.Line.text_append (front back : Line) :
    Line.text (front ++ back) = Line.text front ++ Line.text back := by
  rw [text, List.map_append, String.join_append, text, text]

theorem CSharp.Line.text_code (code : String) : Line.text [.code code] = code := by
  simp [text, Piece.text]

namespace Accessor

/-- Lines below one another, each behind a line break. -/
def under (lines : List Line) : String :=
  String.join (lines.map fun line => "\n" ++ line.text)

theorem under_append (upper lower : List Line) :
    under (upper ++ lower) = under upper ++ under lower := by
  rw [under, List.map_append, String.join_append, under, under]

theorem under_cons (line : Line) (rest : List Line) :
    under (line :: rest) = "\n" ++ line.text ++ under rest :=
  String.join_cons

/-- Where a getter looks for the switch of its property. -/
def lookup (property : Property) : Line :=
  [.code "return base.ActiveToolSwitches[", .literal property.title, .code "]."]

/-- An accessor up to the member that its getter reads. -/
def opening (property : Property) : String :=
  declarator property.kind ++ property.title ++
    under [Line.indent 1 [.code "\x7b"],
      Line.indent 2 [.code "get"],
      Line.indent 2 [.code "\x7b"],
      Line.indent 3 [.code "if (IsPropertySet(", .literal property.title, .code "))"],
      Line.indent 3 [.code "\x7b"],
      Line.indent 4 (lookup property)]

/-- A getter from behind the member to the default. -/
def between : String :=
  ";" ++ under [Line.indent 3 [.code "\x7d"], [], Line.indent 3 [.code "return "]]

/-- An accessor from behind the default to its end. -/
def closing (lead : String) (property : Property) : String :=
  ";" ++ under ([Line.indent 2 [.code "\x7d"]] ++ setter lead property ++
    [Line.indent 1 [.code "\x7d"]])

section

variable (getters : Getters) (lead : String) (property : Property)

theorem text_lookup : Line.text (lookup property) =
    "return base.ActiveToolSwitches[" ++ (Piece.literal property.title).text ++ "]." := by
  rw [lookup, Line.text, List.map_cons, List.map_cons, List.map_cons, List.map_nil,
    String.join_cons, String.join_cons, String.join_cons, String.join_nil, String.append_empty,
    ← String.append_assoc]
  rfl

theorem opening_eq : ∃ front, opening property = front ++
    ("return base.ActiveToolSwitches[" ++ (Piece.literal property.title).text ++ "].") := by
  have hn : under [] = "" := rfl
  have hi : Line.indent 4 (lookup property) = Line.indent 4 [] ++ lookup property := rfl
  refine ⟨declarator property.kind ++ property.title ++ under [Line.indent 1 [.code "\x7b"],
    Line.indent 2 [.code "get"], Line.indent 2 [.code "\x7b"],
    Line.indent 3 [.code "if (IsPropertySet(", .literal property.title, .code "))"],
    Line.indent 3 [.code "\x7b"], Line.indent 4 []], ?_⟩
  rw [← text_lookup, opening]
  simp only [under_cons, hi, Line.text_append, hn, String.append_empty, String.append_assoc]

theorem between_eq : between = ";\n            \x7d\n\n            return " := by
  decide +kernel

theorem closing_eq : closing lead property =
    ";\n        \x7d" ++ String.join ((setter lead property).map fun line => "\n" ++ line.text) ++
      "\n    \x7d" := by
  have hg : ";" ++ under [Line.indent 2 [.code "\x7d"]] = ";\n        \x7d" := by decide +kernel
  have he : under [Line.indent 1 [.code "\x7d"]] = "\n    \x7d" := by decide +kernel
  rw [closing, under_append, under_append, ← String.append_assoc, ← String.append_assoc, hg, he,
    under]

theorem text_append_code (line : Line) (front word back : String) :
    Line.text (line ++ [.code (front ++ word ++ back)]) =
      Line.text (line ++ [.code front]) ++ word ++ back := by
  simp only [Line.text_append, Line.text_code, String.append_assoc]

theorem text_member : Line.text (Line.indent 4 [.code "return base.ActiveToolSwitches[",
    .literal property.title, .code s!"].{getterMember getters property.kind};"]) =
      Line.text (Line.indent 4 (lookup property)) ++ getterMember getters property.kind ++ ";" :=
  text_append_code (Line.indent 4 [.code "return base.ActiveToolSwitches[",
    .literal property.title]) "]." (getterMember getters property.kind) ";"

theorem text_default :
    Line.text (Line.indent 3 [.code s!"return {getterDefault getters property.kind};"]) =
      Line.text (Line.indent 3 [.code "return "]) ++ getterDefault getters property.kind ++ ";" :=
  text_append_code (Line.indent 3 []) "return " (getterDefault getters property.kind) ";"

theorem render_eq_around :
    render getters lead property =
      opening property ++ getterMember getters property.kind ++ between ++
        getterDefault getters property.kind ++ closing lead property := by
  have hn : under [] = "" := rfl
  rw [render, ← under, body, getter]
  simp only [List.cons_append, List.nil_append, under_append, under_cons, text_member, text_default,
    hn, opening, between, closing]
  simp only [String.append_assoc, String.append_empty]

theorem render_of_stringList (h : property.kind = .stringList) :
    render .typed lead property = render .verbatim lead property := by
  rw [render_eq_around, render_eq_around, h]
  rfl

end

end Accessor

namespace Generation

/-- The getters have no part in what a pass reads. -/
theorem ofDocument_getters (scope : Scope) (document : Markup.Document) :
    (ofDocument ⟨scope, .typed⟩ document).result =
        (ofDocument ⟨scope, .verbatim⟩ document).result ∧
      ∃ lead properties, ∀ getters, (ofDocument ⟨scope, getters⟩ document).output =
        Accessor.renderAll getters lead properties := by
  cases hr : (Scan.start scope document).findRule.result with
  | error flaw =>
    have h := fun getters => @ofDocument_of_error ⟨scope, getters⟩ document flaw hr
    exact ⟨(h .typed).2.trans (h .verbatim).2.symm, "", [], fun getters => (h getters).1⟩
  | ok found =>
    cases found with
    | none =>
      have h := fun getters => @ofDocument_of_none ⟨scope, getters⟩ document hr
      exact ⟨(h .typed).2.trans (h .verbatim).2.symm, "", [], fun getters => (h getters).1⟩
    | some rule =>
      have h := fun getters => @ofDocument_of_rule ⟨scope, getters⟩ document rule hr
      exact ⟨(h .typed).2.trans (h .verbatim).2.symm, rule.lead,
        (Scan.start scope document).findRule.next.yields.1, fun getters => (h getters).1⟩

/-- Passes that differ in the getters come to the same and write the same accessors, but for the
member and the default in each.  Those of string lists are the same altogether. -/
theorem getters_confined (scope : Scope) (origin : String) (bytes : Bytes) :
    (ofBytes ⟨scope, .typed⟩ origin bytes).result =
        (ofBytes ⟨scope, .verbatim⟩ origin bytes).result ∧
      ∃ (lead : String) (properties : List Property),
        (∀ getters, (ofBytes ⟨scope, getters⟩ origin bytes).output =
          String.join (properties.map fun property =>
            Accessor.render getters lead property ++ "\n")) ∧
        ∀ property ∈ properties, ∃ before after : String,
          (∀ getters, Accessor.render getters lead property =
            before ++ Accessor.getterMember getters property.kind ++
              ";\n            \x7d\n\n            return " ++
                Accessor.getterDefault getters property.kind ++ after) ∧
          (∃ front, before = front ++ ("return base.ActiveToolSwitches[" ++
            (Piece.literal property.title).text ++ "].")) ∧
          after = ";\n        \x7d" ++
            String.join ((Accessor.setter lead property).map fun line => "\n" ++ line.text) ++
              "\n    \x7d" ∧
          (property.kind = .stringList →
            Accessor.render .typed lead property = Accessor.render .verbatim lead property) := by
  obtain ⟨hr, lead, properties, ho⟩ := ofDocument_getters scope (.read bytes)
  refine ⟨by rw [ofBytes_result, ofBytes_result, hr], lead, properties, ho, fun property _ => ?_⟩
  refine ⟨Accessor.opening property, Accessor.closing lead property, fun getters => ?_,
    Accessor.opening_eq property, Accessor.closing_eq lead property,
    Accessor.render_of_stringList lead property⟩
  rw [← Accessor.between_eq]
  exact Accessor.render_eq_around getters lead property

end Generation

end ToolSwitch

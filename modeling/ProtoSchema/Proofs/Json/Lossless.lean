import ProtoSchema.Generator
import ProtoSchema.Proofs.Json.Form
import ProtoSchema.Proofs.Link.Reprint

/-!
The texts that the JSON generator writes for a linked file hold all of it: each is read back as that
file. Linking writes no numbers, so it is enough to know those of the file before it was linked.
-/

namespace ProtoSchema

/-! ## Numbers of a linked file -/

theorem Field.indexes_of_linkExtension {scope : Scope} {place : String} {f g : Field}
    (h : f.linkExtension scope place = .ok g) : g.indexes = f.indexes := by
  obtain ⟨_, _, _, _, hlink⟩ := linkExtension_eq_ok_iff.mp h
  rw [eq_of_link hlink]
  rfl

theorem Message.LinksTo.indexes_eq {scope : Scope} {dialect : Dialect} {fullName : String}
    {m n : Message} (h : m.LinksTo scope dialect fullName n) : n.indexes = m.indexes := by
  have hfields : m.fields.map Field.indexes = n.fields.map Field.indexes :=
    map_eq_of_forall₂ h.fields fun f _ g hfg => by rw [Field.eq_of_link hfg]; rfl
  have hextensions : m.extensions.map Field.indexes = n.extensions.map Field.indexes :=
    map_eq_of_forall₂ h.extensions fun f _ g hfg => (Field.indexes_of_linkExtension hfg).symm
  rw [h.rest]
  simp only [indexes, List.flatMap_def, List.map_append, hfields, hextensions]

theorem File.indexes_of_link {file : File} {dependencies : List LinkedFile} {l : LinkedFile}
    (hlink : link file dependencies = .ok l) : l.file.indexes = file.indexes := by
  obtain ⟨_, hextensions, _, hrest⟩ := partsLinkTo_of_link hlink
  have hpublic : l.file.publicImports = file.publicImports := by rw [hrest]
  have hweak : l.file.weakImports = file.weakImports := by rw [hrest]
  have hmessages : l.file.allMessages.map Message.indexes = file.allMessages.map Message.indexes :=
    map_allMessages_of_link hlink Message.LinksTo.indexes_eq
  have hextensions : file.extensions.map Field.indexes = l.file.extensions.map Field.indexes :=
    map_eq_of_forall₂ hextensions fun f _ g hfg => (Field.indexes_of_linkExtension hfg).symm
  simp only [indexes, List.flatMap_def, hpublic, hweak, hmessages, hextensions]

/-- Whichever way the text is spelled, it is read back as the linked file. The places of imports and
fields are 64-bit words, and the finite doubles are taken to be among those that read back. -/
theorem exists_json_text_of_link {file : File} {dependencies : List LinkedFile} {l : LinkedFile}
    (hlink : link file dependencies = .ok l) (hindexes : ∀ n ∈ file.indexes, n < 2 ^ 64)
    (hdoubles : ∀ d ∈ file.doubles, Json.ReadsBack d) {parameter : String}
    (hparameter : parameter ∈ ["", "pretty", "compact"]) :
    ∃ text, Generator.json.generate l parameter = .ok [⟨Output.pathFor l.name "json", text⟩] ∧
      (Json.parse? text).bind File.ofJson? = some l.file := by
  have hnumbers : l.file.Legible := by
    constructor
    · rw [File.indexes_of_link hlink]
      exact hindexes
    · rw [File.doubles, settings_of_link hlink]
      exact hdoubles
  obtain ⟨hlegible, hread⟩ := File.kept hnumbers
  have hpretty : (Json.parse? l.file.toJson.pretty).bind File.ofJson? = some l.file := by
    rw [hlegible.parse?_pretty]
    exact hread
  have hcompact : (Json.parse? l.file.toJson.compact).bind File.ofJson? = some l.file := by
    rw [hlegible.parse?_compact]
    exact hread
  simp only [List.mem_cons, List.not_mem_nil, or_false] at hparameter
  rcases hparameter with rfl | rfl | rfl
  · exact ⟨_, rfl, hpretty⟩
  · exact ⟨_, rfl, hpretty⟩
  · exact ⟨_, rfl, hcompact⟩

def detailedFile : File where
  name := "a/\"b\".proto"
  package := some "p"
  messages :=
    [{ name := "M"
       fields :=
        [{ name := "n", number := Field.maxNumber, label := .optional, typeName := some "N",
           oneofIndex := some 0, options := [⟨"x", .uint 18446744073709551615⟩] }]
       nested := [{ name := "N", options := [⟨"y", .int (-9223372036854775808)⟩] }]
       oneofs := [{ name := "o", fields := [0], options := [⟨"z", .float (.ofRatio false 1 10)⟩] }]
       extensionRanges := [⟨1000, 2000, [⟨"v", .identifier "on"⟩]⟩] }]
  enums := [{ name := "E", values := [⟨"V", -2147483648, [⟨"w", .aggregate "k : 1"⟩]⟩] }]
  services :=
    [{ name := "S"
       methods := [{ name := "call", inputType := "M", outputType := ".p.M.N",
                     options := [⟨"i", .float (.infinite true)⟩] }] }]
  extensions := [{ name := "e", number := 1000, label := .repeated, type := some .bytes,
                   extendee := some "M", options := [⟨"q", .float .nan⟩] }]
  options :=
    [⟨"d", .float (.zero true)⟩, ⟨"s", .string "\"\\\n\x01\x7fé\u2028😀"⟩]

theorem exists_json_text_of_link_detailedFile :
    ∃ l, link detailedFile [] = .ok l ∧ l.file ≠ detailedFile ∧ 0 ∈ detailedFile.indexes ∧
      Double.ofRatio false 1 10 ∈ detailedFile.doubles ∧
      ∃ text, Generator.json.generate l "compact" = .ok [⟨Output.pathFor l.name "json", text⟩] ∧
        (Json.parse? text).bind File.ofJson? = some l.file := by
  have hmade : ((link detailedFile []).toOption.map fun l => decide (l.file = detailedFile)) =
      some false := by
    decide +kernel
  simp only [Option.map_eq_some_iff, toOption_eq_some_iff] at hmade
  obtain ⟨l, hlink, hne⟩ := hmade
  have hindexes : ∀ n ∈ detailedFile.indexes, n < 2 ^ 64 := by decide +kernel
  have hdoubles : ∀ d ∈ detailedFile.doubles, Json.ReadsBack d := by decide +kernel
  exact ⟨l, hlink, of_decide_eq_false hne, by decide +kernel, by decide +kernel,
    exists_json_text_of_link hlink hindexes hdoubles (by decide)⟩

end ProtoSchema

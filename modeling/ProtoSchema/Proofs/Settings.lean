import Mathlib.Data.List.Induction
import ProtoSchema.Proofs.RoundTrip
import ProtoSchema.Proofs.Token.Down

/-!
What is set in a file that was read. Every option at any depth is one that can be read again on its
own, from an option statement with nothing else around it. An aggregate is kept as the texts of its
tokens with a blank between them, and such a text has the same tokens again. Main statement:
`lex_joined_and_parse_aggregate`.
-/

namespace ProtoSchema

open Scan Production List

variable {dialect : Dialect}

/-! ## Everything set in a file can be read -/

theorem Options.written_append {options options' : Options} :
    Written (options ++ options') ↔ options.Written ∧ options'.Written :=
  forall_mem_append

theorem Options.written_flatMap {α : Type} {xs : List α} {options : α → Options} :
    Written (xs.flatMap options) ↔ ∀ x ∈ xs, (options x).Written := by
  simp only [Written, forall_mem_flatMap]

theorem Enum.Written.settings {e : Enum} (h : e.Written) : Options.Written e.settings :=
  Options.written_append.mpr ⟨h.options, Options.written_flatMap.mpr fun v hv =>
    (h.values v hv).options⟩

theorem Service.Written.settings {v : Service} (h : v.Written) : Options.Written v.settings :=
  Options.written_append.mpr ⟨h.options, Options.written_flatMap.mpr fun m hm =>
    (h.methods m hm).options⟩

theorem Field.Written.settings {f : Field} (h : f.Written dialect) : Options.Written f.options := by
  intro t ht
  obtain ⟨w, hw, _⟩ := h.options t ht
  exact ⟨w, hw⟩

theorem PairType.settings {name : String} {entry : Message} (h : PairType name entry) :
    Options.Written entry.settings := by
  obtain ⟨_, key, value, _, _, rfl⟩ := h
  have hall : (mapEntry (mapEntryName name) key value).settings =
      [⟨"map_entry", .identifier "true"⟩] := rfl
  rw [hall]
  have hname : IsIdentifier "map_entry" :=
    ⟨'m', "ap_entry".toList, rfl, rfl, all_eq_true.mp rfl⟩
  have hvalue : IsIdentifier "true" := ⟨'t', "rue".toList, rfl, rfl, all_eq_true.mp rfl⟩
  intro t ht
  obtain rfl := mem_singleton.mp ht
  exact ⟨_, ⟨_, [], .plain hname, by simp, by simp⟩, .identifier hvalue (by decide) (by decide)⟩

/-- A oneof that was declared has the options of its group. -/
theorem FieldGroup.exists_mem_of_oneof {gs : List FieldGroup} {o : Oneof}
    (h : o ∈ (placeAll gs).2) : ∃ name members, .oneof name o.options members ∈ gs := by
  induction gs using List.reverseRecOn with
  | nil => simp [placeAll] at h
  | append_singleton gs g ih =>
    rw [placeAll_concat] at h
    cases g with
    | single f =>
      obtain ⟨name, members, hmem⟩ := ih h
      exact ⟨name, members, mem_append_left _ hmem⟩
    | oneof name options members =>
      rcases mem_append.mp h with h | h
      · obtain ⟨name, members, hmem⟩ := ih h
        exact ⟨name, members, mem_append_left _ hmem⟩
      · obtain rfl := mem_singleton.mp h
        exact ⟨name, members, by simp⟩

namespace Message

/-- Nothing is set in a oneof that is made for a field marked optional. -/
theorem flatMap_options_addSyntheticOneof (m : Message) (index : Nat) :
    (m.addSyntheticOneof index).oneofs.flatMap Oneof.options = m.oneofs.flatMap Oneof.options := by
  unfold addSyntheticOneof
  split
  · rfl
  · simp

theorem flatMap_options_withSyntheticOneofs (m : Message) :
    m.withSyntheticOneofs.oneofs.flatMap Oneof.options = m.oneofs.flatMap Oneof.options := by
  have hall (indexes : List Nat) (n : Message) :
      (indexes.foldl addSyntheticOneof n).oneofs.flatMap Oneof.options =
        n.oneofs.flatMap Oneof.options := by
    induction indexes generalizing n with
    | nil => rfl
    | cons i is ih => rw [foldl_cons, ih, flatMap_options_addSyntheticOneof]
  exact hall m.optionalIndexes m

theorem settings_withSyntheticOneofs (m : Message) :
    m.withSyntheticOneofs.settings = m.settings := by
  have hfields : m.withSyntheticOneofs.fields.flatMap Field.options =
      m.fields.flatMap Field.options := by
    have hsame := congrArg (List.flatMap Field.options) m.furnished_withSyntheticOneofs.unplaced
    simp only [flatMap_map] at hsame
    exact hsame
  simp [settings, hfields, flatMap_options_withSyntheticOneofs]

theorem Declared.settings {inner : Message → Prop} {gs : List FieldGroup} {m : Message}
    (h : m.Declared dialect inner gs) : Options.Written m.settings := by
  simp only [Message.settings, Options.written_append, Options.written_flatMap, forall_mem_append]
  refine ⟨⟨⟨⟨h.options, fun f hf => ?_, fun f hf => ?_⟩, fun o ho => ?_⟩, fun r hr => ?_⟩,
    fun e he => ?_⟩
  · rw [h.fields] at hf
    obtain ⟨g, hg, f₀, hf₀, hsame⟩ :=
      FieldGroup.exists_mem_of_map_unplaced (FieldGroup.map_unplaced_placeAll gs) hf
    have hoptions : f₀.options = f.options := (congrArg Field.options hsame :)
    exact hoptions ▸ ((h.groups g hg).field hf₀).settings
  · exact (h.extensions f hf).written.settings
  · rw [h.oneofs] at ho
    obtain ⟨name, members, hg⟩ := FieldGroup.exists_mem_of_oneof ho
    cases h.groups _ hg with
    | oneof _ hoptions => exact hoptions
  · exact (h.extensionRanges r hr).options
  · exact (h.enums e he).settings

theorem Written.settings {budget : Nat} {m : Message} (h : m.Written dialect budget) :
    Options.Written m.settings := by
  obtain ⟨raw, _, gs, hraw, rfl⟩ := h.exists_declared
  rw [settings_withSyntheticOneofs]
  exact hraw.settings

end Message

theorem File.Written.settings {path : String} {file : File} (h : file.Written path dialect) :
    Options.Written file.settings := by
  simp only [File.settings, File.allMessages, Options.written_append, Options.written_flatMap,
    forall_mem_flatMap]
  refine ⟨⟨⟨⟨h.options, fun m hm n hn => ?_⟩, fun e he => (h.enums e he).settings⟩,
    fun v hv => (h.services v hv).settings⟩, fun f hf => (h.extensions f hf).written.settings⟩
  rcases (h.messages m hm).given hn with ⟨budget, hn⟩ | ⟨name, hn⟩
  · exact hn.settings
  · exact hn.settings

/-- An option that can be read is read from a statement with nothing else around it. -/
theorem exists_parse_option {t : Setting} {v : Word} (ht : t.Written v) (hzero : t.value ≠ .int 0)
    (path : String) :
    ∃ locations, parse path ("option " ++ t.render ++ ";") =
      .ok ({ name := path, options := [t] }, locations) := by
  obtain ⟨ws, hlex, hreads⟩ := exists_reads_optionStatement ht hzero
    (fun s f => { f with options := f.options ++ [s] }) ({ name := path } : File)
  have hsteps : Steps (topLevelStatement ⟨.proto2, .resume⟩) { name := path }
      (.ident "option" :: ws ++ []) { name := path, options := [t] } :=
    .cons (by simp) (fun rest => dispatches_file_option rfl (hreads rest)) .nil
  rw [append_nil] at hsteps
  refine exists_parse_of_reads hlex.map_lex ((reads_atWord "syntax").bind ?_)
  dsimp only
  rw [if_neg (by simp)]
  exact .built hsteps.reads_statements

/-! ## Tokens with blanks between them -/

def joined (ls : List Lexeme) : String :=
  " ".intercalate ((tokens ls).map Token.text)

theorem Word.Valid.kind_ne {w : Word} (h : w.Valid) : w.kind ≠ .endOfInput := by
  cases h with
  | identifier => exact TokenKind.noConfusion
  | number ht => rcases ht.kind_eq with rfl | rfl <;> exact TokenKind.noConfusion
  | string => exact TokenKind.noConfusion
  | symbol => exact TokenKind.noConfusion

theorem exists_valid_words {source : String} (h : ∀ l ∈ lex source, l.remarks = []) :
    ∃ ws : List Word, (∀ w ∈ ws, w.Valid) ∧
      (lex source).map (fun l => l.token.word) = ws ++ [.endOfInput] := by
  obtain ⟨ls, l, hls, hend⟩ := exists_lexemes_concat Position.origin source.toList
  have hsound := sound_lexemes Position.origin source.toList
  rw [lex] at h ⊢
  rw [hls] at h hsound ⊢
  have hvalid := hsound.valid fun k hk => h k (by simp [hk])
  refine ⟨ls.map fun l => l.token.word, forall_mem_map.mpr hvalid, ?_⟩
  rw [map_append, map_singleton, hend]

variable {ls : List Lexeme} {ws : List Word}

private theorem map_word_tokens (hvalid : ∀ w ∈ ws, w.Valid)
    (h : ls.map (fun l => l.token.word) = ws ++ [.endOfInput]) :
    (tokens ls).map Token.word = ws := by
  have hfilter : (tokens ls).map Token.word =
      (ls.map fun l => l.token.word).filter fun w => w.kind ≠ .endOfInput := by
    rw [tokens, filter_map, filter_map, map_map]
    rfl
  have hkept : (ws.filter fun w => w.kind ≠ .endOfInput) = ws :=
    filter_eq_self.mpr fun w hw => by simpa using (hvalid w hw).kind_ne
  rw [hfilter, h, filter_append, hkept]
  exact append_nil ws

private theorem joined_eq (hvalid : ∀ w ∈ ws, w.Valid)
    (h : ls.map (fun l => l.token.word) = ws ++ [.endOfInput]) :
    joined ls = " ".intercalate (ws.map Word.text) := by
  rw [joined, ← map_word_tokens hvalid h, map_map]
  rfl

/-- The text of an aggregate is made up of its own tokens. -/
theorem joined_lex_intercalate (h : ∀ w ∈ ws, w.Valid) :
    joined (lex (" ".intercalate (ws.map Word.text))) = " ".intercalate (ws.map Word.text) :=
  joined_eq h (lexes_intercalate_blank h).map_lex.1

/-- The tokens of a text without remarks, with a blank between them, are read again as the same
tokens. What is set to an aggregate in a file that was read has such a text, and an option statement
in which the aggregate is printed is read as the same setting. -/
theorem lex_joined_and_parse_aggregate :
    (∀ source, (∀ l ∈ lex source, l.remarks = []) →
      (tokens (lex (joined (lex source)))).map Token.word = (tokens (lex source)).map Token.word ∧
        ∀ l ∈ lex (joined (lex source)), l.remarks = []) ∧
    ∀ path source file locations, parse path source = .ok (file, locations) →
      ∀ t ∈ file.settings, ∀ text, t.value = .aggregate text →
        joined (lex text) = text ∧ (∀ l ∈ lex text, l.remarks = []) ∧
        t.value.render = "\x7b " ++ text ++ " \x7d" ∧
        ∀ path', ∃ locations', parse path' ("option " ++ t.name ++ " = " ++ t.value.render ++ ";") =
          .ok ({ name := path', options := [t] }, locations') := by
  constructor
  · intro source hclean
    obtain ⟨ws, hvalid, hwords⟩ := exists_valid_words hclean
    obtain ⟨hagain, hclean'⟩ := (lexes_intercalate_blank hvalid).map_lex
    rw [joined_eq hvalid hwords, map_word_tokens hvalid hwords, map_word_tokens hvalid hagain]
    exact ⟨rfl, hclean'⟩
  · intro path source file locations hparse t ht text htext
    obtain ⟨v, hv⟩ := (written_of_parse hparse).settings t ht
    have hzero : t.value ≠ .int 0 := by
      rw [htext]
      exact OptionValue.noConfusion
    have hvalue := hv.value
    rw [htext] at hvalue
    cases hvalue with
    | @aggregate ws hvalid hbalanced =>
      refine ⟨joined_lex_intercalate hvalid, (lexes_intercalate_blank hvalid).map_lex.2, ?_, ?_⟩
      · rw [htext]
        rfl
      · intro path'
        have hoption := exists_parse_option hv hzero path'
        simpa only [Setting.render, String.append_assoc] using hoption

def nestedAggregate : Setting :=
  ⟨"(o)", .aggregate "a : 1.5 b : - .5 c \x7b d : 'x' \x7d"⟩

theorem lex_joined_and_parse_aggregate_nested :
    (∃ file locations, parse "m.proto" "message M \x7b option (o) =
        \x7ba:1.5 b:-.5/**/c\x7bd:'x'\x7d\x7d; \x7d" = .ok (file, locations) ∧
      nestedAggregate ∈ file.settings ∧
      ∃ locations', parse "n.proto" "option (o) = \x7b a : 1.5 b : - .5 c \x7b d : 'x' \x7d \x7d;" =
        .ok ({ name := "n.proto", options := [nestedAggregate] }, locations')) ∧
    (∀ l ∈ lex "a:1.5 b:-.5/**/c", l.remarks = []) ∧
      (tokens (lex (joined (lex "a:1.5 b:-.5/**/c")))).map Token.word =
        (tokens (lex "a:1.5 b:-.5/**/c")).map Token.word := by
  let source := "message M \x7b option (o) =
        \x7ba:1.5 b:-.5/**/c\x7bd:'x'\x7d\x7d; \x7d"
  let file : File :=
    { name := "m.proto", messages := [{ name := "M", options := [nestedAggregate] }] }
  have hparse : parse "m.proto" source = .ok (file, (readFile "m.proto" source).locations) := by
    decide +kernel
  have hmem : nestedAggregate ∈ file.settings := by decide
  obtain ⟨_, _, _, hagain⟩ :=
    lex_joined_and_parse_aggregate.2 _ _ _ _ hparse nestedAggregate hmem _ rfl
  have hclean : ∀ l ∈ lex "a:1.5 b:-.5/**/c", l.remarks = [] := by decide +kernel
  exact ⟨⟨file, _, hparse, hmem, hagain "n.proto"⟩, hclean,
    (lex_joined_and_parse_aggregate.1 _ hclean).1⟩

end ProtoSchema

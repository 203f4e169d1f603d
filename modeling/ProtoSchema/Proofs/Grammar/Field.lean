import ProtoSchema.Grammar.Field
import ProtoSchema.Proofs.Grammar.Option

/-!
Fields, with their types, defaults and options, read and printed. A field is printed with its label
where that is needed to read it again, and a map field as a map.
-/

namespace ProtoSchema

open Scan List

variable {type : FieldType} {f : Field} {dialect : Dialect} {label : Option Label}

/-! ## Types -/

inductive TypeRef.Written : Word → TypeRef → Prop
  | scalar {type : FieldType} :
    type ∈ FieldType.scalars → Written (.ident type.name) { type := some type }
  | named {w : Word} {name : String} :
    TypeName w name → (∀ x, w = .ident x → FieldType.ofKeyword? x = none) →
    Written w { typeName := some name }

theorem FieldType.ofKeyword?_name (h : type ∈ scalars) : ofKeyword? type.name = some type := by
  revert type
  decide

theorem FieldType.keyword?_of_mem (h : type ∈ scalars) : type.keyword? = some type.name := by
  revert type
  decide

theorem FieldType.isIdentifier_name (type : FieldType) : IsIdentifier type.name := by
  cases type <;> exact ⟨_, _, rfl, by decide, all_eq_true.mp rfl⟩

namespace Field

def typeRef (f : Field) : TypeRef :=
  ⟨f.type, f.typeName⟩

end Field

namespace Production

variable {σ : Type} {s : σ} {w : Word}

theorem yields_fieldType {Q : TypeRef → σ → Word → Prop}
    (h : ∀ type w', TypeRef.Written w type → Q type s w') : Yields fieldType s w Q := by
  refine .step (yields_peek fun t ht => ?_)
  split
  · next type htype =>
    refine .step (yields_bump fun _ w' _ => yields_pure (h _ w' ?_))
    split at htype
    · next hkind =>
      have hname := find?_some htype
      have hw : w = .ident type.name := by
        rw [← ht]
        exact Word.ext hkind (of_decide_eq_true hname).symm
      rw [hw]
      exact .scalar (mem_of_find?_eq_some htype)
    · cases htype
  · next hnone =>
    refine .step (yields_typeName fun name w' hname => yields_pure (h _ w' (.named hname ?_)))
    rintro x rfl
    have hkind : t.kind = .identifier := congrArg Word.kind ht
    have htext : t.text = x := congrArg Word.text ht
    rwa [if_pos hkind, htext] at hnone

theorem yields_declaredType {Q : TypeRef ⊕ TypeRef × TypeRef → σ → Word → Prop}
    (hplain : ∀ type w', TypeRef.Written w type → Q (.inl type) s w')
    (hmap : ∀ key value w', w = .ident "map" → (∃ v, TypeRef.Written v key) →
      (∃ v, TypeRef.Written v value) → Q (.inr (key, value)) s w') :
    Yields declaredType s w Q := by
  refine .step (yields_eatWord (fun hw w' => ?_) fun _ => ?_)
  · refine .step (yields_atSymbol ?_)
    split
    · refine .bind (Q := fun types t _ => t = s ∧ (∃ v, TypeRef.Written v types.1) ∧
        ∃ v, TypeRef.Written v types.2) ?_ ?_
      · refine .step (yields_symbol fun _ w₁ => .step (yields_fieldType fun key w₂ hkey => ?_))
        refine .step (yields_symbol fun _ w₃ => .step (yields_fieldType fun value w₄ hvalue => ?_))
        refine .step (yields_symbol fun _ w₅ => yields_pure ⟨rfl, ⟨_, hkey⟩, _, hvalue⟩)
      · rintro ⟨key, value⟩ _ w₁ ⟨rfl, hkey, hvalue⟩
        exact yields_pure (hmap key value w₁ hw hkey hvalue)
    · refine .step (yields_restOfName fun name w₁ hname => yields_pure (hplain _ w₁ ?_))
      rw [hw]
      refine .named (.relative ⟨_, _, rfl, by decide, all_eq_true.mp rfl⟩ hname) fun x hx => ?_
      rw [← Word.ident_inj.mp hx]
      decide
  · exact .step (yields_fieldType fun type w₁ htype => yields_pure (hplain type w₁ htype))

end Production

namespace TypeRef.Written

open Production

variable {σ : Type} {w : Word}

theorem exists_reads (h : TypeRef.Written w f.typeRef) (s : σ) :
    ∃ ws, Lexes isWordChar f.typeText (w :: ws) ∧
      ∀ rest, Word.front rest ≠ .symbol "." →
        Reads fieldType s (w :: ws ++ rest) f.typeRef s rest := by
  generalize htype : f.typeRef = type at h
  cases h with
  | @scalar type hmem =>
    obtain ⟨hf, _⟩ := TypeRef.mk.inj htype
    refine ⟨[], ?_, fun rest _ => .peek fun t ht => ?_⟩
    · have htext : f.typeText = type.name := by
        simp [Field.typeText, hf, FieldType.keyword?_of_mem hmem]
      rw [htext]
      exact lexes_ident type.isIdentifier_name
    · have hkind : t.kind = .identifier := congrArg Word.kind ht
      have htext : t.text = type.name := congrArg Word.text ht
      rw [if_pos hkind, htext, FieldType.ofKeyword?_name hmem]
      exact .bump fun _ _ => reads_pure _
  | @named w name hname hword =>
    obtain ⟨hf, hf'⟩ := TypeRef.mk.inj htype
    obtain ⟨ws, hlex, hreads⟩ := hname.exists_reads s
    refine ⟨ws, ?_, fun rest hrest => .peek fun t ht => ?_⟩
    · rwa [show f.typeText = name by simp [Field.typeText, hf, hf']]
    · have hnone : (if t.kind = .identifier then FieldType.ofKeyword? t.text else none) = none := by
        split
        · next hkind => exact hword t.text (ht.symm.trans (Word.ext hkind rfl))
        · rfl
      rw [hnone]
      exact (hreads rest hrest).bind (reads_pure _)

theorem exists_reads_declared (h : TypeRef.Written w f.typeRef) (s : σ) :
    ∃ ws, Lexes isWordChar f.typeText (w :: ws) ∧
      ∀ rest, Word.front rest ≠ .symbol "." → Word.front rest ≠ .symbol "<" →
        Reads declaredType s (w :: ws ++ rest) (.inl f.typeRef) s rest := by
  by_cases hw : w = .ident "map"
  · subst hw
    generalize htype : f.typeRef = type at h
    obtain ⟨name, hname, rfl⟩ :
        ∃ name, RestOfName "map" name ∧ type = { typeName := some name } := by
      generalize hmap : Word.ident "map" = w at h
      cases h with
      | @scalar type hmem =>
        have hnone : FieldType.ofKeyword? "map" = none := by decide
        rw [Word.ident_inj.mp hmap, FieldType.ofKeyword?_name hmem] at hnone
        cases hnone
      | @named _ name hname _ =>
        cases hname with
        | relative _ hrest =>
          rw [← Word.ident_inj.mp hmap] at hrest
          exact ⟨name, hrest, rfl⟩
        | absolute => exact absurd hmap (by simp)
    obtain ⟨hf, hf'⟩ := TypeRef.mk.inj htype
    obtain ⟨ws, hlex, hfront, hreads⟩ := hname.exists_reads s
    refine ⟨ws, ?_, fun rest hrest hrest' => (reads_eatWord "map").bind ?_⟩
    · rw [show f.typeText = name by simp [Field.typeText, hf, hf']]
      exact hlex [.ident "map"] (lexes_ident ⟨_, _, rfl, by decide, all_eq_true.mp rfl⟩)
    · refine (reads_atSymbol "<").bind ?_
      rw [if_neg ?_]
      · exact (hreads rest hrest).bind (reads_pure _)
      · rcases hfront with rfl | hpoint
        · simpa using hrest'
        · obtain ⟨v, vs, rfl⟩ : ∃ v vs, ws = v :: vs := by
            cases ws with
            | nil => cases hpoint
            | cons v vs => exact ⟨v, vs, rfl⟩
          rw [Word.front_cons] at hpoint
          simp [hpoint]
  · obtain ⟨ws, hlex, hreads⟩ := h.exists_reads s
    refine ⟨ws, hlex, fun rest hrest _ => (reads_eatWord_of_ne (by simpa using hw)).bind ?_⟩
    exact (hreads rest hrest).bind (reads_pure _)

theorem exists_reads_map {key value : Field} (hkey : ∃ v, TypeRef.Written v key.typeRef)
    (hvalue : ∃ v, TypeRef.Written v value.typeRef) (s : σ) :
    ∃ ws, Lexes never ("map<" ++ key.typeText ++ ", " ++ value.typeText ++ ">")
        (.ident "map" :: ws) ∧
      ∀ rest, Reads declaredType s (.ident "map" :: ws ++ rest)
        (.inr (key.typeRef, value.typeRef)) s rest := by
  obtain ⟨v, hkey⟩ := hkey
  obtain ⟨u, hvalue⟩ := hvalue
  obtain ⟨vs, hlex, hreads⟩ := hkey.exists_reads s
  obtain ⟨us, hlex', hreads'⟩ := hvalue.exists_reads s
  refine ⟨.symbol "<" :: (v :: vs ++ .symbol "," :: (u :: us ++ [.symbol ">"])), ?_, fun rest => ?_⟩
  · simp only [String.append_assoc]
    exact (hlex.joined [.symbol ","] (by decide) (hlex'.followed [.symbol ">"] (by decide))).behind
      [.ident "map", .symbol "<"] (by decide)
  · simp only [cons_append, append_assoc, nil_append]
    refine (reads_eatWord "map").bind ((reads_atSymbol "<").bind ?_)
    rw [if_pos (by simp)]
    have htypes : Reads mapTypes s (.symbol "<" :: v :: (vs ++ .symbol "," :: u ::
        (us ++ .symbol ">" :: rest))) (key.typeRef, value.typeRef) s rest := by
      refine (reads_symbol "<").bind ((hreads _ (by simp)).bind ((reads_symbol ",").bind ?_))
      exact (hreads' _ (by simp)).bind ((reads_symbol ">").bind (reads_pure _))
    exact htypes.bind (reads_pure _)

end TypeRef.Written

/-! ## Defaults -/

/-- The text of a number that a floating-point field can have as its default, without its sign. -/
inductive FloatText : String → Prop
  | integer {n : Nat} : n < IntegerLiteral.limit → FloatText (toString n)
  | float {text : String} :
    Numeral.Text .float text.toList → trimFloatMark text = text.toList → FloatText text
  | word {text : String} : text = "inf" ∨ text = "nan" → FloatText text

open Production in
inductive Default : Option FieldType → String → Prop
  | named {name : String} : IsIdentifier name → Default none name
  | string (text : String) : Default (some .string) text
  | bytes (bs : List UInt8) : Default (some .bytes) (Escape.escape bs)
  | bool {text : String} : text = "true" ∨ text = "false" → Default (some .bool) text
  | float {type : FieldType} {text : String} (negative : Bool) :
    type = .float ∨ type = .double → FloatText text → Default (some type) (signedText negative text)
  | integer {type : FieldType} {negative : Bool} {n : Nat} :
    type.isInteger = true → (negative && type.isUnsigned) = false →
    n ≤ type.integerLimit negative → n < IntegerLiteral.limit →
    Default (some type) (signedText negative (toString n))

namespace Production

variable {σ : Type} {s : σ} {w : Word}

variable {Q : String → σ → Word → Prop} {text : String} {negative : Bool}

theorem yields_floatDefault (htype : type = .float ∨ type = .double)
    (h : ∀ text w', Default (some type) text → Q text s w') : Yields floatDefault s w Q := by
  refine .step (yields_eatSymbol_any fun negative w' => ?_)
  refine .of_inText fun hw => .step (yields_peek fun t ht => ?_)
  split
  · refine .step (yields_integer fun n w'' hn => yields_pure (h _ w'' ?_))
    exact .float negative htype (.integer hn)
  · split
    · next hkind =>
      refine .step (yields_bump fun _ w'' _ => yields_pure (h _ w'' (.float negative htype ?_)))
      subst ht
      obtain ⟨hfloat, htrim⟩ := Numeral.text_trimFloatMark (hw.numeral hkind (.inr rfl))
      rw [String.ofList_toList] at hfloat htrim
      exact .float (by rwa [String.toList_ofList]) (by rwa [String.toList_ofList])
    · split
      · next hword =>
        refine .step (yields_bump fun _ w'' _ => yields_pure (h _ w'' (.float negative htype ?_)))
        rw [Bool.or_eq_true, Token.isWord_iff, Token.isWord_iff] at hword
        exact .word (hword.imp (congrArg Word.text) (congrArg Word.text))
      · exact yields_expected

theorem yields_integerDefault (htype : type.isInteger = true)
    (h : ∀ text w', Default (some type) text → Q text s w') :
    Yields (integerDefault type) s w Q := by
  refine .step (yields_here fun start => .step (yields_eatSymbol_any fun negative w' => ?_))
  split
  · exact yields_reject
  · next hsign =>
    refine .step (yields_integer fun n w'' hn => ?_)
    split
    · exact yields_reject
    · next hlimit =>
      exact yields_pure (h _ w'' (.integer htype (by simpa using hsign) (by omega) hn))

theorem yields_defaultValue {type : Option FieldType}
    (h : ∀ text w', Default type text → Q text s w') : Yields (defaultValue type) s w Q := by
  unfold defaultValue
  split
  · refine .of_inText fun hw => .step (yields_atKind ?_)
    split
    · next hk =>
      refine .step (yields_bump fun t w' ht => yields_pure (h _ w' (.named ?_)))
      subst ht
      exact hw.isIdentifier (by simpa using hk)
    · exact yields_rejectHere
  · exact yields_utf8String fun text w' => h text w' (.string text)
  · exact .step (yields_stringBytes fun bs w' => yields_pure (h _ w' (.bytes bs)))
  · refine .step (yields_peek fun t ht => ?_)
    split
    · next hword =>
      refine .step (yields_bump fun _ w' _ => yields_pure (h _ w' (.bool ?_)))
      rw [Bool.or_eq_true, Token.isWord_iff, Token.isWord_iff] at hword
      exact hword.imp (congrArg Word.text) (congrArg Word.text)
    · exact yields_expected
  · exact yields_floatDefault (.inl rfl) h
  · exact yields_floatDefault (.inr rfl) h
  · exact yields_rejectHere
  · exact yields_rejectHere
  · next type hstring hbytes hbool hfloat hdouble hmessage henum =>
    refine yields_integerDefault ?_ h
    cases type <;> first | rfl | contradiction

def signedWords (negative : Bool) (w : Word) : List Word :=
  if negative then [.symbol "-", w] else [w]

private theorem lexes_signedText (negative : Bool) (h : Lexes goesOn text [w]) :
    Lexes goesOn (signedText negative text) (signedWords negative w) := by
  cases negative with
  | true => exact h.behind [.symbol "-"] (by decide)
  | false => exact h

theorem Reads.sign {β : Type} {v : Word} {rest ws' : List Word} {s' : σ} {b : β}
    {k : Bool → Production σ β} (hv : v ≠ .symbol "-")
    (h : Reads (k negative) s (v :: rest) b s' ws') :
    Reads (eatSymbol "-" >>= k) s (signedWords negative v ++ rest) b s' ws' := by
  cases negative with
  | true => exact (reads_eatSymbol "-").bind h
  | false =>
    have hfront : Word.front (v :: rest) ≠ .symbol "-" := hv
    exact (reads_eatSymbol_of_ne hfront).bind h

theorem recovers_floatDefault (h : FloatText text) (negative : Bool) (s : σ) :
    RecoversItem floatDefault s (signedText negative text)
      (signedText negative text) s := by
  cases h with
  | @integer n hn =>
    refine ⟨_, lexes_signedText negative (lexes_nat n), fun rest _ =>
      .sign (by simp [Word.symbol]) (.token fun t hkind _ => ?_)⟩
    rw [if_pos hkind]
    exact (reads_integer hn _).bind (reads_pure _)
  | float htext htrim =>
    refine ⟨_, lexes_signedText negative (lexes_number htext), fun rest _ =>
      .sign (by simp [Word.symbol]) (.token fun t hkind ht' => ?_)⟩
    rw [if_neg (by simp [hkind]), if_pos hkind, ht', htrim, String.ofList_toList]
    exact .bump fun _ _ => reads_pure _
  | word hword =>
    have hname : IsIdentifier text := by
      rcases hword with rfl | rfl <;> exact ⟨_, _, rfl, by decide, all_eq_true.mp rfl⟩
    refine ⟨_, lexes_signedText negative (lexes_ident hname).goesOn, fun rest _ =>
      .sign (by simp) (.token fun t hkind ht' => ?_)⟩
    rw [if_neg (by simp [hkind]), if_neg (by simp [hkind]), if_pos ?_, ht']
    · exact .bump fun _ _ => reads_pure _
    · simpa [Token.isWord, hkind, ht'] using hword

theorem recovers_integerDefault {n : Nat} (hsign : (negative && type.isUnsigned) = false)
    (hlimit : n ≤ type.integerLimit negative) (hn : n < IntegerLiteral.limit) (s : σ) :
    RecoversItem (integerDefault type) s
      (signedText negative (toString n)) (signedText negative (toString n)) s := by
  refine ⟨_, lexes_signedText negative (lexes_nat n), fun rest _ => .here fun start =>
    .sign (by simp [Word.symbol]) ?_⟩
  rw [if_neg (by simp [hsign])]
  refine (reads_integer hn _).bind ?_
  rw [if_neg (by omega)]
  exact reads_pure _

end Production

open Production

/-- A default is read from what it is printed as. -/
theorem Default.recovers {σ : Type} {value : String} (h : Default f.type value) (s : σ) :
    RecoversItem (defaultValue f.type) s (f.defaultText value) value
      s := by
  unfold Field.defaultText
  generalize f.type = type at h
  cases h with
  | named hname =>
    refine ⟨_, (lexes_ident hname).goesOn, fun rest _ => (reads_atKind .identifier).bind ?_⟩
    rw [if_pos (by rfl)]
    exact .bump fun t ht => by
      rw [show t.text = value from congrArg Word.text ht]
      exact reads_pure _
  | string =>
    refine ⟨_, (lexes_literal value).any, fun rest hrest => reads_utf8String value _ fun h => ?_⟩
    cases hrest.symm.trans h
  | bytes bs =>
    refine ⟨_, (lexes_quoted bs).any, fun rest hrest => (reads_stringBytes _ _ fun h => ?_).bind ?_⟩
    · cases hrest.symm.trans h
    · rw [Escape.unescape_doubleQuoted]
      exact reads_pure _
  | bool hword =>
    have hname : IsIdentifier value := by
      rcases hword with rfl | rfl <;> exact ⟨_, _, rfl, by decide, all_eq_true.mp rfl⟩
    refine ⟨_, (lexes_ident hname).goesOn, fun rest _ => .token fun t hkind htext => ?_⟩
    rw [if_pos ?_, htext]
    · exact .bump fun _ _ => reads_pure _
    · simpa [Token.isWord, hkind, htext] using hword
  | float negative htype htext =>
    rcases htype with rfl | rfl <;> exact recovers_floatDefault htext negative s
  | @integer type negative n htype hsign hlimit hn =>
    have hrecovers := recovers_integerDefault hsign hlimit hn s
    cases type <;> first | exact hrecovers | cases htype

/-! ## Options -/

/-- An option of a field, its default and its JSON name apart. -/
def FieldSetting (t : Setting) : Prop :=
  ∃ w, Setting.Written w t ∧ w ≠ .ident "default" ∧ w ≠ .ident "json_name"

/-- What can be read of a field, its head apart. -/
structure Field.Written (dialect : Dialect) (f : Field) : Prop where
  name : IsIdentifier f.name
  number : 0 ≤ f.number.toInt
  default : ∀ value, f.defaultValue = some value → dialect = .proto2 ∧ Default f.type value
  options : ∀ t ∈ f.options, FieldSetting t

theorem Dialect.eq_proto2 (h : dialect ≠ .proto3) : dialect = .proto2 := by
  cases dialect with
  | proto2 => rfl
  | proto3 => exact absurd rfl h

/-- The field without what is written like an option. -/
def Field.bare (f : Field) : Field :=
  { f with defaultValue := none, jsonName := none, options := [] }

def Field.SameButOptions (f g : Field) : Prop :=
  ∃ defaultValue jsonName options, g = { f with defaultValue, jsonName, options }

namespace Production

variable {w : Word}

theorem yields_fieldOption {g : Field} (hg : g.Written dialect) (hsame : f.SameButOptions g) :
    Yields (fieldOption dialect) g w fun _ g' _ => g'.Written dialect ∧ f.SameButOptions g' := by
  obtain ⟨defaultValue, jsonName, options, rfl⟩ := hsame
  refine .step (yields_here fun start => .step (yields_eatWord (fun _ w' => ?_) fun hdefault => ?_))
  · refine .step (yields_symbol fun _ w'' => ?_)
    dsimp only
    split
    · exact .step yields_report
    · next hdialect =>
      refine .step (yields_built ?_)
      split
      · exact .step yields_report
      · refine .step (yields_defaultValue fun value w₃ hvalue => yields_edit ⟨?_, _, _, _, rfl⟩)
        refine ⟨hg.name, hg.number, fun v hv => ?_, hg.options⟩
        cases hv
        exact ⟨Dialect.eq_proto2 hdialect, hvalue⟩
  · refine .step (yields_eatWord (fun _ w' => ?_) fun hjson => ?_)
    · refine .step (yields_symbol fun _ w'' => .step (yields_built ?_))
      dsimp only
      split
      · exact .step yields_report
      · refine .step (yields_utf8String fun name w₃ => yields_edit ⟨?_, _, _, _, rfl⟩)
        exact ⟨hg.name, hg.number, hg.default, hg.options⟩
    · refine .step (yields_setting fun t w' ht => yields_edit ⟨?_, _, _, _, rfl⟩)
      exact ⟨hg.name, hg.number, hg.default, forall_mem_concat hg.options ⟨w, ht, hdefault, hjson⟩⟩

theorem yields_fieldOptions (hf : f.Written dialect) :
    Yields (fieldOptions dialect) f w fun _ g _ => g.Written dialect ∧ f.SameButOptions g := by
  have hitem : ∀ (g : Field) w, g.Written dialect ∧ f.SameButOptions g →
      Yields (fieldOption dialect) g w fun _ g' _ =>
        True ∧ g'.Written dialect ∧ f.SameButOptions g' :=
    fun g w hg => (yields_fieldOption hg.1 hg.2).mono fun _ g' w' hg' => ⟨trivial, hg'⟩
  refine .step (yields_symbol fun _ w' => (yields_sepBy hitem ⟨hf, _, _, _, rfl⟩).bind ?_)
  rintro _ g w'' ⟨_, hg⟩
  exact yields_symbol fun _ _ => hg

theorem recovers_default {value : String} (hvalue : Default f.type value)
    (hnone : f.defaultValue = none) :
    RecoversItem (fieldOption .proto2) f
      ("default = " ++ f.defaultText value) () { f with defaultValue := some value } := by
  obtain ⟨ws, hlex, hreads⟩ := hvalue.recovers f
  refine ⟨_, hlex.behind [.ident "default", .symbol "="] (by decide), fun rest hrest => ?_⟩
  refine .here fun start => (reads_eatWord "default").bind ((reads_symbol "=").bind ?_)
  refine .built ?_
  dsimp only
  rw [if_neg (by simp [hnone])]
  exact (hreads rest hrest).bind (reads_edit _)

theorem recovers_jsonName (name : String) (hnone : f.jsonName = none) :
    RecoversItem (fieldOption dialect) f
      ("json_name = " ++ literal name) () { f with jsonName := some name } := by
  refine ⟨_, ((lexes_literal name).behind [.ident "json_name", .symbol "="] (by decide)).any,
    fun rest hrest => ?_⟩
  refine .here fun start => (reads_eatWord_of_ne (by simp)).bind ?_
  refine (reads_eatWord "json_name").bind ((reads_symbol "=").bind (.built ?_))
  dsimp only
  rw [if_neg (by simp [hnone])]
  refine (reads_utf8String name _ fun h => ?_).bind (reads_edit _)
  cases hrest.symm.trans h

theorem recovers_fieldSetting {t : Setting} (ht : FieldSetting t) (hs : t.value ≠ .int 0) :
    RecoversItem (fieldOption dialect) f t.render ()
      { f with options := f.options ++ [t] } := by
  obtain ⟨w, ht, hdefault, hjson⟩ := ht
  obtain ⟨ws, hlex, hreads⟩ := ht.exists_reads hs f
  refine ⟨_, hlex, fun rest hrest => ?_⟩
  refine .here fun start => (reads_eatWord_of_ne (by simpa using hdefault)).bind ?_
  refine (reads_eatWord_of_ne (by simpa using hjson)).bind ?_
  exact (hreads rest hrest).bind (reads_edit _)

/-- The default, the JSON name and the options of a field, in the order they are printed in. -/
theorem exists_recoversAll_fieldOptions (hf : f.Written dialect) (hs : Options.Signed f.options) :
    ∃ us, RecoversItems (fieldOption dialect) f.bare
      (f.specialOptions ++ f.options.map Setting.render) us f := by
  have hdefault : ∃ us, RecoversItems (fieldOption dialect) f.bare
      (f.defaultValue.map fun value => "default = " ++ f.defaultText value).toList us
      { f with jsonName := none, options := [] } := by
    cases hvalue : f.defaultValue with
    | none => exact ⟨[], .nil⟩
    | some value =>
      obtain ⟨rfl, htext⟩ := hf.default value hvalue
      exact ⟨[()], .cons (recovers_default htext rfl) .nil⟩
  have hjson : ∃ us, RecoversItems (fieldOption dialect) { f with jsonName := none, options := [] }
      (f.jsonName.map fun name => "json_name = " ++ literal name).toList us
      { f with options := [] } := by
    cases hname : f.jsonName with
    | none => exact ⟨[], .nil⟩
    | some name => exact ⟨[()], .cons (recovers_jsonName name rfl) .nil⟩
  have hsetting : ∀ done, ∀ t ∈ f.options, RecoversItem
      (fieldOption dialect) { f with options := done } t.render ()
      { f with options := done ++ [t] } :=
    fun done t ht => recovers_fieldSetting (hf.options t ht) (hs t ht)
  obtain ⟨us, hdefault⟩ := hdefault
  obtain ⟨vs, hjson⟩ := hjson
  exact ⟨_, (hdefault.append hjson).append
    (recoversAll_map (fun done => { f with options := done }) hsetting [])⟩

/-- What is printed behind a field's number is read as its options. -/
theorem exists_reads_fieldOptions {σ β : Type} (hf : f.Written dialect)
    (hs : Options.Signed f.options) (s : σ) :
    ∃ ws, Lexes never (Options.bracketed f.options f.specialOptions) ws ∧
      ∀ (k : Field → Production σ β) rest b ws',
        Word.front rest ≠ .symbol "[" → Reads (k f) s rest b s ws' →
        Reads (atSymbol "[" >>= fun brackets =>
          if brackets = true then build f.bare (fieldOptions dialect) >>= k
          else pure f.bare >>= k) s (ws ++ rest) b s ws' := by
  obtain ⟨us, hall⟩ := exists_recoversAll_fieldOptions hf hs
  unfold Options.bracketed
  dsimp only
  by_cases hnone : f.specialOptions ++ f.options.map Setting.render = []
  · refine ⟨[], by simpa [hnone] using Lexes.empty never, fun k rest b ws' hrest hk =>
      (reads_atSymbol "[").bind ?_⟩
    rw [hnone] at hall
    rw [if_neg (by simpa using hrest), hall.eq_of_nil]
    exact hk
  · obtain ⟨ws, hlex, hreads⟩ := hall.exists_commas hnone
    refine ⟨.symbol "[" :: ws ++ [.symbol "]"], ?_, fun k rest b ws' _ hk =>
      (reads_atSymbol "[").bind ?_⟩
    · rw [if_neg (by simpa using hnone)]
      exact lexes_brackets hlex
    · rw [if_pos (by simp), List.append_assoc]
      have hoptions : Reads (fieldOptions dialect) f.bare
          (.symbol "[" :: (ws ++ .symbol "]" :: rest)) () f rest :=
        (reads_symbol "[").bind ((hreads _ rfl (by simp)).bind (reads_symbol "]"))
      exact (reads_build hoptions).bind hk

/-! ## Fields -/

end Production

structure Field.Labelled (f : Field) (dialect : Dialect) (inOneof : Bool) (label : Option Label) :
    Prop where
  kept : f.label = label.getD .optional
  marked :
    f.proto3Optional = (decide (label = some .optional) && decide (dialect = .proto3) && !inOneof)
  outside : inOneof = true → label = none
  allowed : dialect = .proto3 → label ≠ some .required

/-- What can be read as the head of a field that is no map. Where no label is printed, the type
begins with a word that is none, and of which `ok` holds. -/
structure Field.Headed (f : Field) (dialect : Dialect) (inOneof : Bool) (ok : Word → Prop) :
    Prop where
  label : ∃ label, f.Labelled dialect inOneof label
  type : ∃ v, TypeRef.Written v f.typeRef ∧ v ≠ .ident "group" ∧
    (f.writtenLabel? dialect inOneof = none → (∀ l : Label, v ≠ .ident l.keyword) ∧ ok v)

/-- The label that is printed is the one that was declared, or one that says the same. -/
theorem Field.Labelled.exists_written {inOneof : Bool} (h : f.Labelled dialect inOneof label) :
    ∃ written, f.writtenLabel? dialect inOneof = written.map Label.keyword ∧
      f.Labelled dialect inOneof written ∧
      (written = none → inOneof = true ∨ dialect = .proto3) := by
  obtain ⟨hkept, hmarked, houtside, hallowed⟩ := h
  cases inOneof with
  | true =>
    obtain rfl := houtside rfl
    exact ⟨none, rfl, ⟨hkept, hmarked, fun _ => rfl, by simp⟩, fun _ => .inl rfl⟩
  | false =>
    cases dialect with
    | proto2 =>
      exact ⟨some f.label, by simp [writtenLabel?], ⟨rfl, by simpa using hmarked, by simp, by simp⟩,
        by simp⟩
    | proto3 =>
      refine ⟨label, ?_, ⟨hkept, hmarked, houtside, hallowed⟩, fun _ => .inr rfl⟩
      have hrequired := hallowed rfl
      rcases label with _ | _ | _ | _ <;> simp_all [writtenLabel?, Label.keyword]

theorem Field.Labelled.eq_none {inOneof : Bool} (h : f.Labelled dialect inOneof label)
    (hnone : f.writtenLabel? dialect inOneof = none) : label = none := by
  obtain ⟨hkept, hmarked, houtside, hallowed⟩ := h
  cases inOneof with
  | true => exact houtside rfl
  | false =>
    cases dialect with
    | proto2 => simp [writtenLabel?] at hnone
    | proto3 =>
      have hrequired := hallowed rfl
      rcases label with _ | _ | _ | _ <;> simp_all [writtenLabel?]

structure Field.IsMap (f : Field) : Prop where
  label : f.label = .repeated
  type : f.typeRef = { typeName := some (mapEntryName f.name) }
  unmarked : f.proto3Optional = false

/-- The message made for the map field with the given name, of types that can be read. -/
def PairType (name : String) (entry : Message) : Prop :=
  IsIdentifier name ∧ ∃ key value, (∃ v, TypeRef.Written v key) ∧ (∃ v, TypeRef.Written v value) ∧
    entry = mapEntry (mapEntryName name) key value

namespace Production

variable {σ : Type} {s : σ} {w : Word} {inOneof : Bool}

theorem yields_label? {Q : Option Label → σ → Word → Prop}
    (hsome : ∀ l w', w = .ident l.keyword → Q (some l) s w')
    (hnone : (∀ l : Label, w ≠ .ident l.keyword) → Q none s w) : Yields label? s w Q := by
  refine .step (yields_peek fun t ht => ?_)
  subst ht
  split
  · next l hl =>
    refine .step (yields_bump fun _ w' _ => yields_pure (hsome l w' ?_))
    split at hl
    · next hkind =>
      have hname := find?_some hl
      exact Word.ext hkind (of_decide_eq_true hname).symm
    · cases hl
  · next hno =>
    refine yields_pure (hnone fun l hl => ?_)
    have hkind : t.kind = .identifier := congrArg Word.kind hl
    have htext : t.text = l.keyword := congrArg Word.text hl
    rw [if_pos hkind, htext] at hno
    cases l <;> cases hno

variable {start : Position} {Q : Field × Option Message → σ → Word → Prop} {entry : Option Message}
  {path : List Int}

theorem yields_checkLabel {Q : Unit → σ → Word → Prop}
    (h : (inOneof = true → label = none) →
      (label = none → inOneof = false → dialect = .proto2 → w = .ident "map") →
      (dialect = .proto3 → label ≠ some .required) → Q () s w) :
    Yields (checkLabel dialect inOneof start label) s w Q := by
  have hrequired : (inOneof = true → label = none) →
      (label = none → inOneof = false → dialect = .proto2 → w = .ident "map") →
      Yields (if label = some .required && dialect = .proto3 then report start .requiredField
        else pure ()) s w Q := by
    intro houtside hmap
    split
    · exact yields_report
    · next hno =>
      refine yields_pure (h houtside hmap fun hd hl => hno ?_)
      simp [hd, hl]
  unfold checkLabel
  dsimp only
  split
  · exact .step yields_report
  · next hin =>
    have houtside : inOneof = true → label = none := by
      intro h
      simpa [h] using hin
    split
    · refine .step (yields_atWord ?_)
      split
      · exact .step (yields_here fun _ => .step yields_report)
      · next hmap => exact hrequired houtside fun _ _ _ => by simpa using hmap
    · next hno =>
      refine hrequired houtside fun hl hi hd => absurd ?_ hno
      simp [hl, hi, hd]

theorem yields_fieldEnd {bare : Field} (hbare : bare.Written dialect)
    (h : ∀ f w', f.Written dialect → bare.SameButOptions f →
      (entry.isSome = true → inOneof = false) → Q (f, entry) s w') :
    Yields (do
      if entry.isSome && label.isSome then report start .labelOnMap
      if entry.isSome && inOneof then report start .mapInOneof
      let f ← if ← atSymbol "[" then build bare (fieldOptions dialect) else pure bare
      endOfStatement
      record path start
      return (f, entry)) s w Q := by
  dsimp only
  split
  · exact .step yields_report
  split
  · exact .step yields_report
  next hin =>
  have hentry : entry.isSome = true → inOneof = false := fun hsome => by simpa [hsome] using hin
  refine .step (yields_atSymbol ?_)
  split
  · refine .step (yields_build ((yields_fieldOptions hbare).mono fun _ f w' hf => ?_))
    refine .step (yields_symbol fun _ w'' => .step (yields_record (yields_pure ?_)))
    exact h f w'' hf.1 hf.2 hentry
  · refine .step (yields_pure (.step (yields_symbol fun _ w' => .step (yields_record ?_))))
    exact yields_pure (h bare w' hbare ⟨_, _, _, rfl⟩ hentry)

private theorem written_declaredField {name : String} {number : Int32} (hname : IsIdentifier name)
    (hnumber : 0 ≤ number.toInt) (type : TypeRef ⊕ TypeRef × TypeRef) :
    (declaredField dialect inOneof label name number type).1.Written dialect := by
  rcases type with type | ⟨key, value⟩ <;>
    exact ⟨hname, hnumber, by simp [declaredField], by simp [declaredField]⟩

theorem yields_field
    (hplain : ∀ f w', f.Written dialect → f.Headed dialect inOneof (· = w) → f.extendee = none →
      f.oneofIndex = none → Q (f, none) s w')
    (hmap : ∀ f entry w', f.Written dialect → f.IsMap → PairType f.name entry → inOneof = false →
      f.extendee = none → f.oneofIndex = none → Q (f, some entry) s w') :
    Yields (field dialect path inOneof) s w Q := by
  refine .step (yields_here fun start => ?_)
  refine .bind (Q := fun label s' w' => s' = s ∧
      (label = none → w' = w ∧ ∀ l : Label, w ≠ .ident l.keyword)) ?_ ?_
  · exact yields_label? (fun l w' _ => ⟨rfl, fun h => by cases h⟩)
      fun hno => ⟨rfl, fun _ => ⟨rfl, hno⟩⟩
  rintro label _ w' ⟨rfl, hlabel⟩
  refine .step (yields_checkLabel fun houtside hfirst hallowed => .step (yields_atWord ?_))
  dsimp only
  split
  · exact .step yields_rejectHere
  next hgroup =>
  refine .step (yields_declaredType (fun type w₁ htype => ?_)
    fun key value w₁ hw' hkey hvalue => ?_)
  · refine .step (yields_identifier fun name w₂ _ hname => .step (yields_symbol fun _ w₃ => ?_))
    refine .step (yields_int32 fun number w₄ hnumber => ?_)
    refine yields_fieldEnd (written_declaredField hname (by simpa using hnumber) _) ?_
    rintro f w₅ hf hsame _
    have hlabelled : f.Labelled dialect inOneof label := by
      obtain ⟨_, _, _, rfl⟩ := hsame
      exact ⟨rfl, rfl, houtside, hallowed⟩
    have hword : f.writtenLabel? dialect inOneof = none →
        (∀ l : Label, w' ≠ .ident l.keyword) ∧ w' = w := by
      intro hnone
      obtain ⟨rfl, hno⟩ := hlabel (hlabelled.eq_none hnone)
      exact ⟨hno, rfl⟩
    obtain ⟨_, _, _, rfl⟩ := hsame
    exact hplain _ w₅ hf ⟨⟨label, hlabelled⟩, w', htype, by simpa using hgroup, hword⟩ rfl rfl
  · refine .step (yields_identifier fun name w₂ _ hname => .step (yields_symbol fun _ w₃ => ?_))
    refine .step (yields_int32 fun number w₄ hnumber => ?_)
    refine yields_fieldEnd (written_declaredField hname (by simpa using hnumber) _) ?_
    rintro f w₅ hf ⟨_, _, _, rfl⟩ hin
    exact hmap _ _ w₅ hf ⟨rfl, rfl, rfl⟩ ⟨hname, key, value, hkey, hvalue, rfl⟩ (hin rfl) rfl rfl

/-! ## Reading a field -/

variable {ws rest : List Word}

def labelWords (label : Option Label) : List Word :=
  label.toList.map fun l => .ident l.keyword

theorem reads_label? (h : label = none → ∀ l : Label, Word.front ws ≠ .ident l.keyword) :
    Reads label? s (labelWords label ++ ws) label s ws := by
  refine .peek fun t ht => ?_
  cases label with
  | none =>
    have hnone : (if t.kind = .identifier then Label.ofKeyword? t.text else none) = none := by
      split
      · next hkind =>
        refine find?_eq_none.mpr fun l _ => ?_
        have hl := h rfl l
        intro heq
        refine hl (ht.symm.trans (Word.ext hkind ?_))
        exact (of_decide_eq_true heq).symm
      · rfl
    rw [hnone]
    exact reads_pure none
  | some l =>
    have hkind : t.kind = .identifier := congrArg Word.kind ht
    have htext : t.text = l.keyword := congrArg Word.text ht
    have hsome : Label.ofKeyword? l.keyword = some l := by cases l <;> rfl
    rw [if_pos hkind, htext, hsome]
    exact .bump fun _ _ => reads_pure _

theorem reads_checkLabel (start : Position) (houtside : inOneof = true → label = none)
    (hfirst : label = none → inOneof = true ∨ dialect = .proto3 ∨ Word.front ws = .ident "map")
    (hallowed : dialect = .proto3 → label ≠ some .required) :
    Reads (checkLabel dialect inOneof start label) s ws () s ws := by
  have hrequired : Reads (if label = some .required && dialect = .proto3 then
      report start .requiredField else pure ()) s ws () s ws := by
    rw [if_neg ?_]
    · exact reads_pure ()
    · intro h
      simp only [Bool.and_eq_true, decide_eq_true_eq] at h
      exact hallowed h.2 h.1
  unfold checkLabel
  dsimp only
  rw [if_neg ?_]
  · split
    · next hno =>
      simp only [Bool.and_eq_true, Bool.not_eq_true', decide_eq_true_eq, Option.isNone_iff_eq_none]
        at hno
      obtain ⟨⟨hnone, hin⟩, hdialect⟩ := hno
      have hmap : Word.front ws = .ident "map" := by
        rcases hfirst hnone with h | h | h
        · simp [hin] at h
        · simp [hdialect] at h
        · exact h
      refine (reads_atWord "map").bind ?_
      rw [if_neg (by simp [hmap])]
      exact hrequired
    · exact hrequired
  · intro h
    simp only [Bool.and_eq_true] at h
    simp [houtside h.1] at h

/-- A field from the words of its label and its type on. What follows the type is printed in the
same way for every field. -/
theorem exists_reads_field {type : TypeRef ⊕ TypeRef × TypeRef} (hf : f.Written dialect)
    (hs : Options.Signed f.options) (houtside : inOneof = true → label = none)
    (hallowed : dialect = .proto3 → label ≠ some .required)
    (hdeclared : declaredField dialect inOneof label f.name f.number type =
      ({ f.bare with extendee := none, oneofIndex := none }, entry))
    (hentry : entry.isSome = true → label = none ∧ inOneof = false) (path : List Int) (s : σ) :
    ∃ us, Lexes never (" " ++ f.name ++ " = " ++ toString f.number.toInt ++
        Options.bracketed f.options f.specialOptions ++ ";") us ∧
      ∀ v ws rest, v ≠ .ident "group" → (label = none → ∀ l : Label, v ≠ .ident l.keyword) →
        (label = none → inOneof = true ∨ dialect = .proto3 ∨ v = .ident "map") →
        (∀ rest, Word.front rest ≠ .symbol "." → Word.front rest ≠ .symbol "<" →
          Reads declaredType s (v :: ws ++ rest) type s rest) →
        Reads (field dialect path inOneof) s (labelWords label ++ (v :: ws ++ (us ++ rest)))
          ({ f with extendee := none, oneofIndex := none }, entry) s rest := by
  have hf' : Field.Written dialect { f with extendee := none, oneofIndex := none } :=
    ⟨hf.name, hf.number, hf.default, hf.options⟩
  obtain ⟨os, hos, hoptions⟩ := exists_reads_fieldOptions hf' hs s
  replace hos : Lexes never (Options.bracketed f.options f.specialOptions) os := hos
  refine ⟨.ident f.name :: .symbol "=" :: (intWords f.number.toInt ++ (os ++ [.symbol ";"])),
    ?_, ?_⟩
  · have hnumber := (lexes_int f.number.toInt).append (hos.followed [.symbol ";"] (by decide))
      (fits_bracketed _ _ _)
    simp only [String.append_assoc]
    exact ((lexes_ident hf.name).joined [.symbol "="] (by decide) hnumber).behind [] (by decide)
  · intro v ws rest hgroup hlabel hfirst htype
    refine .here fun start => (reads_label? ?_).bind ?_
    · exact hlabel
    refine (reads_checkLabel start houtside hfirst hallowed).bind ((reads_atWord "group").bind ?_)
    dsimp only
    rw [if_neg (by simpa using hgroup)]
    simp only [cons_append, append_assoc, nil_append]
    refine (htype _ (by simp) (by simp)).bind ((reads_identifier f.name _).bind ?_)
    refine (reads_symbol "=").bind ((reads_int32 (.inr hf.number) _).bind ?_)
    rw [hdeclared]
    dsimp only
    rw [if_neg ?_, if_neg ?_]
    · refine hoptions _ _ _ _ (by simp) ((reads_symbol ";").bind ((reads_record _ _).bind ?_))
      exact reads_pure _
    · intro h
      simp only [Bool.and_eq_true] at h
      simp [(hentry h.1).2] at h
    · intro h
      simp only [Bool.and_eq_true] at h
      simp [(hentry h.1).1] at h

end Production

namespace Field

variable {σ : Type} {inOneof : Bool} {ok : Word → Prop} {nested : List Message}

private theorem lexes_head {written : Option Label} {ws : List Word}
    (hentry : f.entryIn? nested = none)
    (hwritten : f.writtenLabel? dialect inOneof = written.map Label.keyword)
    (h : Lexes isWordChar f.typeText ws) :
    Lexes isWordChar (f.head nested dialect inOneof) (labelWords written ++ ws) := by
  simp only [head, hentry, hwritten]
  cases written with
  | none => exact h
  | some l =>
    exact h.behind [.ident l.keyword] (by cases l <;> decide)

/-- The line of a field from its head and what follows it. -/
theorem linesLex_line {ws us : List Word}
    (h : Lexes isWordChar (f.head nested dialect inOneof) ws)
    (k : Lexes never (" " ++ f.name ++ " = " ++ toString f.number.toInt ++
      Options.bracketed f.options f.specialOptions ++ ";") us) :
    LinesLex [f.line nested dialect inOneof] (ws ++ us) := by
  have hline := h.append k (fits_of_head (c := ' ') (by simp) rfl)
  simp only [← String.append_assoc] at hline
  exact .of hline.any

/-- A field that is no map is read from its line. -/
theorem Headed.exists_reads (hhead : f.Headed dialect inOneof ok) (hf : f.Written dialect)
    (hs : Options.Signed f.options) (hentry : f.entryIn? nested = none) (path : List Int) (s : σ) :
    ∃ w ws, LinesLex [f.line nested dialect inOneof] (w :: ws) ∧
      ((∃ l : Label, w = .ident l.keyword) ∨ TypeRef.Written w f.typeRef ∧ ok w) ∧
      ∀ rest, Reads (field dialect path inOneof) s (w :: ws ++ rest)
        ({ f with extendee := none, oneofIndex := none }, none) s rest := by
  obtain ⟨label, hlabelled⟩ := hhead.label
  obtain ⟨v, htype, hgroup, hunlabelled⟩ := hhead.type
  obtain ⟨written, hwritten, hlabelled, hnone⟩ := hlabelled.exists_written
  obtain ⟨vs, hvs, hreads⟩ := htype.exists_reads_declared s
  have hdeclared : declaredField dialect inOneof written f.name f.number (.inl f.typeRef) =
      ({ f.bare with extendee := none, oneofIndex := none }, none) := by
    simp only [declaredField, ← hlabelled.kept, ← hlabelled.marked]
    rfl
  obtain ⟨us, hus, hfield⟩ := exists_reads_field hf hs hlabelled.outside hlabelled.allowed hdeclared
    (by simp) path s
  have hline :
      LinesLex [f.line nested dialect inOneof] (labelWords written ++ (v :: vs ++ us)) := by
    rw [← append_assoc]
    exact linesLex_line (lexes_head hentry hwritten hvs) hus
  have hfirst : written = none → inOneof = true ∨ dialect = .proto3 ∨ v = .ident "map" :=
    fun h => (hnone h).imp_right .inl
  have hno : written = none → (∀ l : Label, v ≠ .ident l.keyword) ∧ ok v :=
    fun h => hunlabelled (by rw [hwritten, h]; rfl)
  cases written with
  | none =>
    refine ⟨v, vs ++ us, hline, .inr ⟨htype, (hno rfl).2⟩, fun rest => ?_⟩
    rw [cons_append, append_assoc]
    exact hfield v vs rest hgroup (fun h => (hno h).1) hfirst hreads
  | some l =>
    refine ⟨.ident l.keyword, v :: vs ++ us, hline, .inl ⟨l, rfl⟩, fun rest => ?_⟩
    rw [cons_append, append_assoc]
    exact hfield v vs rest hgroup (fun h => (hno h).1) hfirst hreads

/-- A map field is read from its line together with its pair type. -/
theorem IsMap.exists_reads {entry : Message} (hmap : f.IsMap) (hf : f.Written dialect)
    (hs : Options.Signed f.options) (hentry : f.entryIn? nested = some entry)
    (hpair : PairType f.name entry) (path : List Int) (s : σ) :
    ∃ ws, LinesLex [f.line nested dialect false] (.ident "map" :: ws) ∧
      ∀ rest, Reads (field dialect path false) s (.ident "map" :: ws ++ rest)
        ({ f with extendee := none, oneofIndex := none }, some entry) s rest := by
  obtain ⟨_, key, value, hkey, hvalue, rfl⟩ := hpair
  let entry := mapEntry (mapEntryName f.name) key value
  have hdeclared : declaredField dialect false none f.name f.number (.inr (key, value)) =
      ({ f.bare with extendee := none, oneofIndex := none }, some entry) := by
    obtain ⟨hnone, hname⟩ := TypeRef.mk.inj hmap.type
    simp only [declaredField, ← hname, ← hmap.label, ← hmap.unmarked, ← hnone]
    rfl
  obtain ⟨us, hus, hfield⟩ := exists_reads_field hf hs (by simp) (by simp) hdeclared
    (fun _ => ⟨rfl, rfl⟩) path s
  let first : Field :=
    { name := "key", number := 1, label := .optional, type := key.type, typeName := key.typeName }
  let second : Field :=
    { name := "value", number := 2, label := .optional, type := value.type,
      typeName := value.typeName }
  have hfirst : ∃ v, TypeRef.Written v first.typeRef := hkey
  have hsecond : ∃ v, TypeRef.Written v second.typeRef := hvalue
  obtain ⟨vs, hvs, hreads⟩ := TypeRef.Written.exists_reads_map hfirst hsecond s
  have hhead : Lexes isWordChar (f.head nested dialect false) (.ident "map" :: vs) := by
    simp only [head, hentry]
    exact hvs.any
  refine ⟨vs ++ us, linesLex_line hhead hus, fun rest => ?_⟩
  rw [cons_append, append_assoc]
  exact hfield (.ident "map") vs rest (by simp) (fun _ l => by cases l <;> simp [Label.keyword])
    (fun _ => .inr (.inr rfl)) fun rest _ _ => hreads rest

end Field

end ProtoSchema

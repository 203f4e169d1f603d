import ProtoSchema.Proofs.Grammar.Located
import ProtoSchema.Proofs.Token.Order

/-!
The location table of a file that is read from a text, whatever is wrong with the text. Main
statement: the table has one entry for each declaration and no other, each entry leads to what was
read from the tokens it covers, and the spans are nested as the declarations are.
-/

namespace ProtoSchema

open List Token Cursor

variable {x : String} {dialect : Dialect}

namespace Edge

theorem encode_cons (e : Edge) (p : List Edge) :
    encode (e :: p) = e.1 :: Int.ofNat e.2 :: encode p :=
  rfl

theorem isPrefix_of_encode {p q : List Edge} (h : encode p <+: encode q) : p <+: q := by
  induction p generalizing q with
  | nil => exact nil_prefix
  | cons e p ih =>
    cases q with
    | nil =>
      rw [encode_cons] at h
      exact absurd (prefix_nil.mp h) (cons_ne_nil _ _)
    | cons e' q =>
      rw [encode_cons, encode_cons, cons_prefix_cons, cons_prefix_cons] at h
      obtain ⟨htag, hindex, hrest⟩ := h
      exact cons_prefix_cons.mpr ⟨Prod.ext htag (Int.ofNat.inj hindex), ih hrest⟩

theorem encode_injective : Function.Injective encode := by
  intro p q h
  have hp : p <+: q := isPrefix_of_encode (h ▸ prefix_refl (encode p))
  have hq : q <+: p := isPrefix_of_encode (h ▸ prefix_refl (encode p))
  exact hp.eq_of_length_le hq.length_le

end Edge

/-! ## Fields written as maps -/

def behindLabel : List Token → List Token
  | [] => []
  | t :: ts => if t.kind = .identifier && (Label.ofKeyword? t.text).isSome then ts else t :: ts

def beginsMap : List Token → Bool
  | t :: u :: _ => t.isWord "map" && u.isSymbol "<"
  | _ => false

def TypeRef.ofTokens (ts : List Token) : TypeRef :=
  match ts.head?.bind fun t => FieldType.ofKeyword? t.text with
  | some type => { type := some type }
  | none => { typeName := some (String.join (ts.map Token.text)) }

def divideAt (x : String) (ts : List Token) : List Token × List Token :=
  (ts.takeWhile (!·.isSymbol x), (ts.dropWhile (!·.isSymbol x)).tail)

def mapWritten? (ts : List Token) : Option (TypeRef × TypeRef) :=
  if beginsMap ts then
    let (key, rest) := divideAt "," ts.tail.tail
    some (.ofTokens key, .ofTokens (divideAt ">" rest).1)
  else none

private theorem divideAt_append {read : List Token} {t : Token}
    (hread : ∀ t ∈ read, (!t.isSymbol x) = true) (ht : t.isSymbol x = true) (rest : List Token) :
    divideAt x (read ++ t :: rest) = (read, rest) := by
  rw [divideAt, takeWhile_append_of_pos hread, dropWhile_append_of_pos hread,
    takeWhile_cons_of_neg (by simp [ht]), dropWhile_cons_of_neg (by simp [ht]),
    append_nil, tail_cons]

theorem Token.text_of_isSymbol {t : Token} (h : t.isSymbol x = true) : t.text = x :=
  congrArg Word.text (isSymbol_iff.mp h)

namespace Production

variable {σ α : Type} {s : σ} {c d : Cursor}

/-- What holds with or without a value holds at the end. -/
theorem Ends.always {p : Production σ α} {I : σ → Cursor → Prop} (h : Ends p s c (fun _ => I) I) :
    I (p.run s c).2.1 (p.run s c).2.2 := by
  unfold Ends at h
  generalize p.run s c = outcome at h
  obtain ⟨_ | a, s', d⟩ := outcome
  · exact h
  · exact h

theorem Ends.bump {f : Token → Production σ α} {Q : α → σ → Cursor → Prop} {E : σ → Cursor → Prop}
    (h : Ends (f c.current) s c.bump Q E) : Ends (Production.bump >>= f) s c Q E :=
  h

private theorem tokens_bump (h : c.ahead ≠ []) : c.bump.tokens = c.tokens.tail := by
  obtain ⟨l, ls, hahead⟩ := exists_cons_of_ne_nil h
  simp [Cursor.tokens, bump_of_cons hahead, hahead]

/-- The tokens of a part of a dotted name have been taken, and spell `text`. -/
def TakesName (c : Cursor) (text : String) (d : Cursor) : Prop :=
  d.Bounded ∧ ∃ read, c.tokens = read ++ d.tokens ∧ String.join (read.map Token.text) = text ∧
    ∀ t ∈ read, t.kind = .identifier ∨ t.isSymbol "." = true

private theorem tokens_eq_cons (hc : c.Bounded) (h : c.current.kind ≠ .endOfInput) :
    c.tokens = c.current :: c.bump.tokens ∧ c.bump.Bounded := by
  have hahead := hc.ahead_ne_nil h
  rw [tokens_bump hahead]
  exact ⟨rfl, (Cursor.Takes.bump hahead).bounded hc⟩

private theorem tokens_eq_cons_of_isSymbol (hc : c.Bounded) (h : c.current.isSymbol x = true) :
    c.tokens = c.current :: c.bump.tokens ∧ c.bump.Bounded :=
  tokens_eq_cons hc (ne_endOfInput (kind_of_isSymbol h))

theorem TakesName.bump {text : String} (hc : c.Bounded)
    (h : c.current.kind = .identifier ∨ c.current.isSymbol "." = true)
    (hd : c.bump.Bounded → TakesName c.bump text d) : TakesName c (c.current.text ++ text) d := by
  have hkind : c.current.kind ≠ .endOfInput :=
    h.elim ne_endOfInput fun h => ne_endOfInput (kind_of_isSymbol h)
  obtain ⟨htokens, hbump⟩ := tokens_eq_cons hc hkind
  obtain ⟨hbounded, read, hread, htext, hkinds⟩ := hd hbump
  refine ⟨hbounded, c.current :: read, ?_, ?_, forall_mem_cons.mpr ⟨h, hkinds⟩⟩
  · rw [htokens, hread, cons_append]
  · rw [map_cons, String.join_cons, htext]

theorem ends_symbol :
    Ends (symbol x) s c (fun _ _ d => c.current.isSymbol x = true ∧ d = c.bump) fun _ _ => True :=
  .bind (.look (.ite (fun hx => .bump (.pure (.pure ⟨hx, rfl⟩))) fun _ => .pure trivial))

theorem ends_identifier {what : String} :
    Ends (identifier what) s c (fun a _ d => a = c.current.text ∧ c.current.kind = .identifier ∧
      d = c.bump) fun _ _ => True :=
  .look (.ite (fun h => .bump (.pure ⟨rfl, of_decide_eq_true h, rfl⟩)) fun _ => trivial)

theorem ends_restOfName (first : String) (hc : c.Bounded) :
    Ends (restOfName first) s c (fun name _ d => ∃ text, name = first ++ text ∧ TakesName c text d)
      fun _ _ => True := by
  refine .bind (.of_value fun parts s' d hrun => .pure ?_)
  have hrun : runAfter "." (identifier "identifier") s c = (some parts, s', d) := hrun
  fun_induction runAfter "." (identifier "identifier") s c generalizing parts first with
  | case1 | case5 =>
    cases hrun
    exact ⟨"", by simp [String.intercalate_singleton], hc, [], rfl, rfl, forall_mem_nil _⟩
  | case2 => cases hrun
  | case4 => cases hrun
  | case3 s c hpoint hahead a _ e h parts _ _ hparts ih =>
    cases hrun
    obtain ⟨rfl, hkind, rfl⟩ := ends_identifier.of_run h
    have hbump := (Cursor.Takes.bump hahead).bounded hc
    obtain ⟨text, hname, htakes⟩ := ih c.bump.current.text
      (tokens_eq_cons hbump (ne_endOfInput hkind)).2 parts hparts hparts
    refine ⟨"." ++ (c.bump.current.text ++ text), ?_, ?_⟩
    · rw [String.intercalate_cons_cons, hname, String.append_assoc]
    · rw [← text_of_isSymbol hpoint]
      exact .bump hc (.inr hpoint) fun _ => .bump hbump (.inl hkind) fun _ => htakes

theorem ends_typeName (hc : c.Bounded) :
    Ends typeName s c (fun name _ d => TakesName c name d) fun _ _ => True := by
  have hrest : ∀ (lead : String) (c : Cursor), c.Bounded →
      Ends (identifier "type name" >>= fun first => restOfName (lead ++ first)) s c
        (fun name _ d => ∃ text, name = lead ++ text ∧ TakesName c text d) fun _ _ => True := by
    intro lead c hc
    refine .bind (.mono ends_identifier ?_ fun _ _ _ => trivial)
    rintro _ s _ ⟨rfl, hkind, rfl⟩
    have hbump := (tokens_eq_cons hc (ne_endOfInput hkind)).2
    refine .mono (ends_restOfName _ hbump) ?_ fun _ _ _ => trivial
    rintro _ _ d ⟨text, rfl, htakes⟩
    exact ⟨_, String.append_assoc, .bump hc (.inl hkind) fun _ => htakes⟩
  refine .bind (.look (.ite (fun hpoint => .bump (.pure ?_)) fun _ => .pure ?_))
  · have hkind := ne_endOfInput (kind_of_isSymbol hpoint)
    refine .mono (hrest "." _ (tokens_eq_cons hc hkind).2) ?_ fun _ _ _ => trivial
    rintro _ _ d ⟨text, rfl, htakes⟩
    rw [← text_of_isSymbol hpoint]
    exact .bump hc (.inr hpoint) fun _ => htakes
  · refine .mono (hrest "" _ hc) ?_ fun _ _ _ => trivial
    rintro _ _ d ⟨text, rfl, htakes⟩
    rwa [String.empty_append]

/-- The tokens of a type have been taken, and none of them is the symbol `x`. -/
theorem ends_fieldType (hx : x ≠ ".") (hc : c.Bounded) :
    Ends fieldType s c (fun type _ d => d.Bounded ∧ ∃ read, c.tokens = read ++ d.tokens ∧
      TypeRef.ofTokens read = type ∧ ∀ t ∈ read, (!t.isSymbol x) = true) fun _ _ => True := by
  refine .look ?_
  split
  · next type h =>
    obtain ⟨hkind, htype⟩ := Option.ite_none_right_eq_some.mp h
    obtain ⟨htokens, hbump⟩ := tokens_eq_cons hc (ne_endOfInput hkind)
    refine .bump (.pure ⟨hbump, [c.current], htokens, ?_, ?_⟩)
    · simp [TypeRef.ofTokens, htype]
    · simp [Token.isSymbol, hkind]
  · next h =>
    refine .bind (.mono (ends_typeName hc) ?_ fun _ _ _ => trivial)
    rintro name _ d ⟨hd, read, htokens, rfl, hread⟩
    refine .pure ⟨hd, read, htokens, ?_, fun t ht => ?_⟩
    · have hnone : (read.head?.bind fun t => FieldType.ofKeyword? t.text) = none := by
        cases read with
        | nil => rfl
        | cons t read =>
          obtain rfl : c.current = t := (List.cons.inj htokens).1
          rcases hread _ mem_cons_self with hkind | hpoint
          · rwa [if_pos hkind] at h
          · rw [head?_cons, Option.bind_some, text_of_isSymbol hpoint]
            decide
      rw [TypeRef.ofTokens, hnone]
    · rcases hread t ht with hkind | hpoint
      · simp [Token.isSymbol, hkind]
      · simp [Token.isSymbol, text_of_isSymbol hpoint, hx.symm]

theorem ends_label? (hc : c.Bounded) :
    Ends label? s c (fun _ _ d => d.tokens = behindLabel c.tokens ∧ d.Bounded) fun _ _ => True := by
  refine .look ?_
  split
  · next label h =>
    obtain ⟨hkind, hlabel⟩ := Option.ite_none_right_eq_some.mp h
    have hahead := hc.ahead_ne_nil (ne_endOfInput hkind)
    refine .bump (.pure ⟨?_, (Cursor.Takes.bump hahead).bounded hc⟩)
    rw [tokens_bump hahead]
    simp [Cursor.tokens, behindLabel, hkind, hlabel]
  · next h =>
    refine .pure ⟨?_, hc⟩
    have hlabel : ¬(c.current.kind = .identifier ∧ (Label.ofKeyword? c.current.text).isSome) := by
      rintro ⟨hkind, hsome⟩
      rw [if_pos hkind] at h
      simp [h] at hsome
    simp only [Cursor.tokens, behindLabel, Bool.and_eq_true, decide_eq_true_eq, if_neg hlabel]

theorem ends_checkLabel {inOneof : Bool} {start : Position} {label : Option Label}
    (hc : c.Bounded) :
    Ends (checkLabel dialect inOneof start label) s c
      (fun _ _ d => d.tokens = c.tokens ∧ d.Bounded) fun _ _ => True := by
  have hrequired : ∀ d, d.tokens = c.tokens ∧ d.Bounded →
      Ends (if label = some .required && dialect = .proto3 then report start .requiredField
        else pure ()) s d (fun _ _ d => d.tokens = c.tokens ∧ d.Bounded) fun _ _ => True :=
    fun d hd => .ite (fun _ => hd) fun _ => hd
  refine .ite (fun _ => ?_) fun _ => .ite (fun _ => ?_) fun _ => ?_
  · exact .report (hrequired _ ⟨rfl, hc⟩)
  · refine .look (.ite (fun _ => ?_) fun _ => ?_)
    · exact .look (.report (hrequired _ ⟨rfl, hc⟩))
    · exact hrequired _ ⟨rfl, hc⟩
  · exact hrequired _ ⟨rfl, hc⟩

theorem ends_mapTypes (hc : c.Bounded) :
    Ends mapTypes s c (fun types _ _ => types = (.ofTokens (divideAt "," c.tokens.tail).1,
      .ofTokens (divideAt ">" (divideAt "," c.tokens.tail).2).1)) fun _ _ => True := by
  refine .bind (.mono ends_symbol ?_ fun _ _ _ => trivial)
  rintro _ _ _ ⟨hopen, rfl⟩
  obtain ⟨htokens, hc⟩ := tokens_eq_cons_of_isSymbol hc hopen
  refine .bind (.mono (ends_fieldType (x := ",") (by decide) hc) ?_ fun _ _ _ => trivial)
  rintro _ _ c₁ ⟨hc₁, key, hkey, rfl, hplain⟩
  refine .bind (.mono ends_symbol ?_ fun _ _ _ => trivial)
  rintro _ _ _ ⟨hcomma, rfl⟩
  obtain ⟨htokens₁, hc₁⟩ := tokens_eq_cons_of_isSymbol hc₁ hcomma
  refine .bind (.mono (ends_fieldType (x := ">") (by decide) hc₁) ?_ fun _ _ _ => trivial)
  rintro _ _ c₂ ⟨hc₂, value, hvalue, rfl, hplain'⟩
  refine .bind (.mono ends_symbol ?_ fun _ _ _ => trivial)
  rintro _ _ _ ⟨hclose, rfl⟩
  have hleft := divideAt_append hplain hcomma c₁.bump.tokens
  have hright := divideAt_append hplain' hclose c₂.bump.tokens
  rw [← htokens₁, ← hkey] at hleft
  rw [← (tokens_eq_cons_of_isSymbol hc₂ hclose).1, ← hvalue] at hright
  rw [htokens, tail_cons, hleft, hright]
  exact .pure rfl

theorem ends_declaredType (hc : c.Bounded) :
    Ends declaredType s c (fun type _ _ => type.getRight? = mapWritten? c.tokens)
      fun _ _ => True := by
  refine .bind (.look (.ite (fun hword => ?_) fun hword => ?_))
  · have hahead := hc.ahead_ne_nil (ne_endOfInput (kind_of_isWord hword))
    obtain ⟨l, ls, hls⟩ := exists_cons_of_ne_nil hahead
    have hmap : beginsMap c.tokens = c.bump.current.isSymbol "<" := by
      rw [bump_of_cons hls, Cursor.tokens, hls]
      simp [beginsMap, hword]
    refine .bump (.pure (.look (.ite (fun hsymbol => ?_) fun hsymbol => ?_)))
    · have hc' := (Cursor.Takes.bump hahead).bounded hc
      refine .bind (.mono (ends_mapTypes hc') (fun types _ _ htypes => .pure ?_)
        fun _ _ _ => trivial)
      rw [mapWritten?, hmap, if_pos hsymbol, htypes, tokens_bump hahead]
      rfl
    · refine .any fun _ _ _ => .pure ?_
      rw [mapWritten?, hmap, if_neg hsymbol]
      rfl
  · refine .pure (.any fun _ _ _ => .pure ?_)
    have hplain : ¬beginsMap c.tokens = true := by
      unfold beginsMap
      split
      · next heq =>
        rw [← (List.cons.inj heq).1, Bool.and_eq_true]
        exact fun h => hword h.1
      · exact Bool.false_ne_true
    rw [mapWritten?, if_neg hplain]
    rfl

/-- A field has a pair type, of the types that are written, if it is written as a map. -/
theorem ends_field_map {path : List Int} {inOneof : Bool} (hc : c.Bounded) :
    Ends (field dialect path inOneof) s c
      (fun a _ _ => ∃ name, a.2 = (mapWritten? (behindLabel c.tokens)).map fun types =>
        mapEntry name types.1 types.2) fun _ _ => True := by
  refine .look (.bind (.mono (ends_label? hc) ?_ fun _ _ _ => trivial))
  rintro label s₁ c₁ ⟨htokens₁, hc₁⟩
  refine .bind (.mono (ends_checkLabel hc₁) ?_ fun _ _ _ => trivial)
  rintro _ s₂ c₂ ⟨htokens₂, hc₂⟩
  refine .look (.ite (fun _ => trivial) fun _ => ?_)
  refine .bind (.mono (ends_declaredType hc₂) ?_ fun _ _ _ => trivial)
  intro type s₃ c₃ htype
  rw [htokens₂, htokens₁] at htype
  refine .any fun name _ _ => .any fun _ _ _ => .any fun number _ _ => ?_
  have hentry : (declaredField dialect inOneof label name number type).2 =
      (mapWritten? (behindLabel c.tokens)).map fun types =>
        mapEntry (mapEntryName name) types.1 types.2 := by
    rw [← htype]
    cases type <;> rfl
  generalize declaredField dialect inOneof label name number type = declared at hentry
  refine .any_guarded fun _ _ => .any_guarded fun _ _ => .any fun _ _ _ => ?_
  have hend : ∀ (f : Field) (s : σ) d, Ends (do
      endOfStatement
      record path c.current.position
      return (f, declared.2)) s d
      (fun a _ _ => ∃ name, a.2 = (mapWritten? (behindLabel c.tokens)).map fun types =>
        mapEntry name types.1 types.2) fun _ _ => True :=
    fun _ _ _ => .any fun _ _ _ => .any fun _ _ _ => .pure ⟨_, hentry⟩
  exact .ite (fun _ => .any fun f _ _ => hend f _ _) fun _ => .any fun f _ _ => hend f _ _

end Production

/-! ## The table -/

def tokensOf (source : String) : List Token :=
  (lex source).map Lexeme.token

/-- The entries are the location table of a file that was read from `source`. -/
structure LocationTable (source : String) (file : File) (es : List Entry) : Prop where
  /-- No path is recorded twice. -/
  distinct : ((es.map (Entry.location [])).map Location.path).Nodup
  /-- What is declared in the file is recorded, but not the pair types of maps and what is in them,
  and nothing else is. -/
  mem_iff : ∀ p, p ∈ es.map Entry.path ↔ p ≠ [] ∧
    (∃ z, (Item.file file).walk p = some z ∧ z.IsDeclared) ∧ ∀ q ∈ madePaths es, ¬q <+: p
  /-- The path of an entry leads to what is read from its tokens. If a pair type was made for it,
  that is in the same message. -/
  stands : ∀ a ∈ es, ∃ z pair, (Item.file file).walk a.path = some z ∧
    ReadAt (tokensOf source) file.dialect z pair a.span a.first a.past ∧
    a.HasPairType (.file file) pair
  /-- Pair types are made for the fields that are written as maps, one for each. -/
  made_iff : ∀ a ∈ es, a.made.isSome = true ↔
    (∃ f, (Item.file file).walk a.path = some (.field f)) ∧
      beginsMap (behindLabel ((tokensOf source).drop a.first)) = true
  made_distinct : (madePaths es).Nodup
  /-- A span goes from the first character of a token to just past the last one of a token that is
  not before it. -/
  span : ∀ a ∈ es, ∃ t u before before', a.first ≤ a.past - 1 ∧
    (tokensOf source)[a.first]? = some t ∧ (tokensOf source)[a.past - 1]? = some u ∧
    a.span = ⟨t.position, u.finish⟩ ∧ t.text ≠ "" ∧ u.text ≠ "" ∧
    t.StandsBehind .origin source.toList before ∧ u.StandsBehind .origin source.toList before'
  /-- The span of a declaration lies within the spans of those it stands in. -/
  within : ∀ a ∈ es, ∀ b ∈ es, (b.location []).path <+: (a.location []).path →
    b.span.start ≤ a.span.start ∧ a.span.finish ≤ b.span.finish

section Table

variable {source : String} {file : File} {es : List Entry} {i j : Nat}

theorem tokens_next_ofSource (source : String) :
    (Cursor.ofSource source).next.tokens = tokensOf source := by
  obtain ⟨l, ls, hlex⟩ := exists_lex_cons source
  rw [next_ofSource hlex, tokensOf, hlex]
  rfl

variable {c : Cursor} {k : Nat} {t : Token}

private theorem lt_of_tokens_eq_drop (h : c.tokens = (tokensOf source).drop k) :
    k < (tokensOf source).length := by
  have hlength := congrArg List.length h
  simp only [Cursor.tokens, length_cons, length_drop] at hlength
  omega

theorem bounded_of_tokens_eq_drop (h : c.tokens = (tokensOf source).drop k) : c.Bounded := by
  have hbounded := bounded_next_ofSource source
  have hlt := lt_of_tokens_eq_drop h
  rw [Cursor.Bounded, tokens_next_ofSource] at hbounded
  rw [Cursor.Bounded, h, getLast?_drop, if_neg (by omega), hbounded]

theorem exists_standsBehind (h : (tokensOf source)[k]? = some t) :
    ∃ before, t.StandsBehind .origin source.toList before := by
  rw [tokensOf, getElem?_map] at h
  obtain ⟨l, hl, rfl⟩ := Option.map_eq_some_iff.mp h
  exact Scan.exists_standsBehind_of_mem_lexemes (mem_of_getElem? hl)

private theorem text_ne_of_getElem? (h : (tokensOf source)[k]? = some t)
    (hk : k + 1 < (tokensOf source).length) : t.text ≠ "" := by
  rw [tokensOf, length_map] at hk
  rw [tokensOf, getElem?_map] at h
  obtain ⟨l, hl, rfl⟩ := Option.map_eq_some_iff.mp h
  have hmem : l ∈ (lex source).dropLast := by
    refine mem_of_getElem? (i := k) ?_
    rw [getElem?_dropLast, if_pos (by omega), hl]
  exact Scan.text_ne_of_mem_dropLast hmem

/-- Only fields get pair types. -/
theorem ReadBy.isSome_iff {z : Item} {pair : Option Message} {d : Cursor}
    (h : ReadBy dialect z pair c d) (hc : c.Bounded) :
    pair.isSome = true ↔ (∃ f, z = .field f) ∧ beginsMap (behindLabel c.tokens) = true := by
  cases h with
  | field hrun =>
    obtain ⟨name, hmap⟩ := (Production.ends_field_map hc).of_run hrun
    have hpair : pair = _ := hmap
    simp [hpair, mapWritten?]
  | _ => simp

/-- A table of what was noted while a text was read is its location table. -/
theorem Covers.locationTable
    (h : Noted (ReadAt (tokensOf source) file.dialect) (.file file) i j es) :
    LocationTable source file es where
  distinct := by
    have hpaths : (es.map (Entry.location [])).map Location.path =
        (es.map Entry.path).map Edge.encode := by
      rw [map_map, map_map]
      rfl
    rw [hpaths]
    exact h.nodup.map Edge.encode_injective
  mem_iff p := by
    constructor
    · intro hp
      obtain ⟨a, ha, rfl⟩ := mem_map.mp hp
      obtain ⟨z, _, hwalk, hdeclared, _⟩ := h.stands a ha
      exact ⟨h.domain a ha, ⟨z, hwalk, hdeclared⟩, h.apart a ha⟩
    · rintro ⟨hne, ⟨z, hwalk, hdeclared⟩, hapart⟩
      rcases h.complete p z hne hwalk hdeclared with hmem | ⟨q, hq, hprefix⟩
      · exact hmem
      · exact absurd hprefix (hapart q hq)
  stands a ha := by
    obtain ⟨z, pair, hwalk, _, _, _, hread, hpair⟩ := h.stands a ha
    exact ⟨z, pair, hwalk, hread, hpair⟩
  made_iff a ha := by
    obtain ⟨z, pair, hwalk, _, _, _, hread, hpair⟩ := h.stands a ha
    obtain ⟨_, _, _, c, d, hc, _, hreads⟩ := hread
    have hmade : a.made.isSome = pair.isSome := by
      rcases hpair with ⟨hmade, rfl⟩ | ⟨_, _, _, n, _, hmade, rfl, _⟩
      · rw [hmade]
        rfl
      · rw [hmade]
        rfl
    rw [hmade, hreads.isSome_iff (bounded_of_tokens_eq_drop hc), hc, hwalk]
    simp only [Option.some.injEq]
  made_distinct := h.made_nodup
  span a ha := by
    obtain ⟨z, pair, _, _, _, _, hread, _⟩ := h.stands a ha
    obtain ⟨hlt, hstart, hfinish, _, d, _, hd, _⟩ := hread
    have hpast := lt_of_tokens_eq_drop hd
    obtain ⟨t, ht, hposition⟩ := Option.map_eq_some_iff.mp hstart
    obtain ⟨u, hu, hend⟩ := Option.map_eq_some_iff.mp hfinish
    obtain ⟨before, hbefore⟩ := exists_standsBehind ht
    obtain ⟨before', hbefore'⟩ := exists_standsBehind hu
    refine ⟨t, u, before, before', by omega, ht, hu, by rw [hposition, hend], ?_, ?_, hbefore,
      hbefore'⟩
    · exact text_ne_of_getElem? ht (by omega)
    · exact text_ne_of_getElem? hu (by omega)
  within a ha b hb hprefix := by
    obtain ⟨hfirst, hpast⟩ := h.within a ha b hb (Edge.isPrefix_of_encode hprefix)
    obtain ⟨_, _, _, _, _, _, ⟨_, hstart, hfinish, _⟩, _⟩ := h.stands a ha
    obtain ⟨_, _, _, _, _, _, ⟨_, hstart', hfinish', _⟩, _⟩ := h.stands b hb
    obtain ⟨t, ht, hposition⟩ := Option.map_eq_some_iff.mp hstart
    obtain ⟨u, hu, hend⟩ := Option.map_eq_some_iff.mp hfinish
    obtain ⟨t', ht', hposition'⟩ := Option.map_eq_some_iff.mp hstart'
    obtain ⟨u', hu', hend'⟩ := Option.map_eq_some_iff.mp hfinish'
    rw [← hposition, ← hposition', ← hend, ← hend']
    exact ⟨(le_of_getElem? hfirst ht' ht).1, (le_of_getElem? (by omega) hu hu').2⟩

end Table

/-- What is recorded while a text is read is a table of what is read. -/
theorem exists_noted_readFile (path source : String) :
    ∃ i j es, (readFile path source).locations = es.map (Entry.location []) ∧
      Noted (ReadAt (tokensOf source) (readFile path source).file.dialect)
        (.file (readFile path source).file) i j es := by
  have htokens := tokens_next_ofSource source
  have hinside : (Cursor.ofSource source).next.tokens <:+ tokensOf source :=
    htokens ▸ suffix_refl _
  have hends := Production.ends_fileBody (f := { name := path })
    (bounded_next_ofSource source) hinside fun tag => by simp [Item.children]
  obtain ⟨_, _, es, hnoted, hlocations⟩ := hends.always
  refine ⟨_, _, es, ?_, hnoted⟩
  obtain ⟨l, ls, hlex⟩ := exists_lex_cons source
  have hnone : (Cursor.ofSource source).next.locations = [] := by rw [next_ofSource hlex]
  rw [hnone, nil_append] at hlocations
  exact hlocations

end ProtoSchema

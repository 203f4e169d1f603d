import ProtoSchema.Proofs.Grammar.Building
import ProtoSchema.Proofs.Link.Linked

/-!
How deep messages nest in a file that was read. A declared message uses up one level of the limit,
but the pair type of a map field is made without asking for one. So the linker, which counts all
messages, finds one too deep exactly if a message at the limit has a map field.
-/

namespace ProtoSchema

open List

namespace Message

/-- Messages nest at most `budget` deep in the message, itself counted, but for the pair types of
its map fields. -/
def Nests : Nat → Message → Prop
  | 0, _ => False
  | budget + 1, m => ∀ n ∈ m.nested, n.Nests budget ∨ ∃ f ∈ m.fields, f.DeclaresMap n

variable {budget : Nat} {m m' n : Message}

/-- Where fields are put among the oneofs does not matter. -/
theorem Nests.congr (h : m.Nests (budget + 1)) (hnested : m'.nested = m.nested)
    (hfields : m'.fields.map Field.unplaced = m.fields.map Field.unplaced) :
    m'.Nests (budget + 1) := by
  intro n hn
  rw [hnested] at hn
  rcases h n hn with hn | ⟨f, hf, hmap⟩
  · exact .inl hn
  · have hplaced : f.unplaced ∈ m'.fields.map Field.unplaced := by
      rw [hfields]
      exact mem_map_of_mem hf
    obtain ⟨g, hg, hsame⟩ := mem_map.mp hplaced
    exact .inr ⟨g, hg, hmap.congr hsame.symm⟩

theorem Nests.addNested (h : m.Nests (budget + 1)) (hn : n.Nests budget) :
    Nests (budget + 1) { m with nested := m.nested ++ [n] } :=
  forall_mem_append.mpr ⟨h, forall_mem_singleton.mpr (.inl hn)⟩

theorem Nests.addField (h : m.Nests (budget + 1)) {oneof : Option Nat} {inOneof : Bool} {f : Field}
    {entry : Option Message} (hf : Production.FieldRead inOneof f entry) :
    (m.addField oneof f entry).Nests (budget + 1) := by
  refine forall_mem_append.mpr ⟨fun n hn => ?_, fun n hn => .inr ?_⟩
  · exact (h n hn).imp_right fun ⟨g, hg, hmap⟩ => ⟨g, mem_append_left _ hg, hmap⟩
  · refine ⟨_, mem_append_right _ (mem_singleton.mpr rfl), ?_⟩
    exact (hf.pairType n (by simpa using hn)).congr rfl

theorem kept_nests (budget : Nat) :
    Kept (Nests budget) (Nests (budget + 1)) fun _ => Nests (budget + 1) where
  congr h _ hfields _ hnested := h.congr hnested (by rw [hfields])
  addNested h hn := h.addNested hn
  addField h hf := h.addField hf
  openOneof h _ := h
  addOption h _ := h
  addMember h hf := h.addField hf
  closeOneof h := h

end Message

theorem Production.messageRead_nests {σ : Type} {dialect : Dialect} {path : List Int}
    {budget : Nat} :
    MessageRead (Message.Nests budget)
      (message ⟨dialect, .resume⟩ budget path : Production σ Message) :=
  messageRead_message Message.kept_nests (fun _ _ _ hn => by cases hn) fun _ m h =>
    h.congr m.nested_withSyntheticOneofs m.furnished_withSyntheticOneofs.unplaced

theorem File.kept_nests :
    Kept (Message.Nests Message.maxNesting)
      fun file => ∀ m ∈ file.messages, m.Nests Message.maxNesting where
  congr h hmessages _ _ _ := by rwa [hmessages]
  addMessage h hm := forall_mem_append.mpr ⟨h, forall_mem_singleton.mpr hm⟩
  addImport h _ _ := h

/-- Whatever is wrong with a text, the messages in it nest no deeper than they may. -/
theorem nests_readFile (path source : String) :
    ∀ m ∈ (readFile path source).file.messages, m.Nests Message.maxNesting :=
  File.kept_nests.readInto (fun _ _ => Production.messageRead_nests) (fun _ hm => by cases hm)
    source

/-! ## Places -/

def PairAt (holds : List Step → Declared → Prop) (place : List Step) (n : Message) : Prop :=
  ∃ outer i name parent, place = outer ++ [.message i] ∧ holds outer ⟨name, .message parent⟩ ∧
    parent.nested[i]? = some n ∧ ∃ f ∈ parent.fields, f.DeclaresMap n

namespace Message

variable {budget : Nat} {m n : Message} {scope name : String} {place : List Step}

/-- No message stands in a pair type. -/
theorem eq_nil_of_holds_mapEntry {entry : String} {key value : TypeRef}
    (h : (mapEntry entry key value).Holds scope place ⟨name, .message n⟩) :
    place = [] ∧ n = mapEntry entry key value := by
  rcases holds_iff.mp h with ⟨rfl, heq⟩ | ⟨i, k, _, hk, _⟩ | ⟨_, _, _, _, heq⟩
  · cases heq
    exact ⟨rfl, rfl⟩
  · cases hk
  · cases heq

/-- A message lies within the budget, or one level below it as a pair type. -/
theorem Nests.length_lt_or_pairAt (h : m.Nests budget)
    (hn : m.Holds scope place ⟨name, .message n⟩) :
    place.length < budget ∨ place.length = budget ∧ PairAt (m.Holds scope) place n := by
  induction budget generalizing m scope place with
  | zero => exact h.elim
  | succ budget ih =>
    rcases holds_iff.mp hn with ⟨rfl, _⟩ | ⟨i, k, rest, hk, rfl, hrest⟩ | ⟨_, _, _, _, heq⟩
    · exact .inl (Nat.succ_pos budget)
    · rw [Nat.zero_add]
      rcases h k (mem_of_getElem? hk) with hnests | ⟨f, hf, hmap⟩
      · rcases ih hnests hrest with hlt | ⟨hlength, outer, j, x, parent, rfl, hholds, hpair⟩
        · exact .inl (Nat.succ_lt_succ hlt)
        · exact .inr ⟨congrArg Nat.succ hlength,
            .message i :: outer, j, x, parent, rfl, .nested hk hholds, hpair⟩
      · -- nothing stands in the pair type, so the place ends here
        obtain ⟨key, value, rfl⟩ := hmap.entry
        obtain ⟨rfl, rfl⟩ := eq_nil_of_holds_mapEntry hrest
        rcases Nat.eq_zero_or_pos budget with rfl | hpos
        · exact .inr ⟨rfl, [], i, _, m, rfl, .self scope m, hk, f, hf, hmap⟩
        · exact .inl (Nat.succ_lt_succ hpos)
    · cases heq

end Message

namespace LinkFault

mutual

/-- The message that is found lies one level too deep. -/
theorem exists_holds_of_tooDeep? (scope : String) (levels : Nat) {n : Message} : ∀ m : Message,
    tooDeep? levels m = some n →
      ∃ place name, m.Holds scope place ⟨name, .message n⟩ ∧ place.length = levels
  | ⟨name, _, _, nested, _, _, _, _, _, _⟩ => by
    intro h
    cases levels with
    | zero =>
      rw [tooDeep?] at h
      cases h
      exact ⟨[], _, .self scope _, rfl⟩
    | succ levels =>
      rw [tooDeep?] at h
      obtain ⟨place, x, hin, hlength⟩ :=
        exists_holdsIn_of_tooDeepIn? (Name.qualify scope name) 0 levels nested h
      exact ⟨place, x, Message.holds_iff.mpr (.inr (.inl hin)), hlength⟩

theorem exists_holdsIn_of_tooDeepIn? (scope : String) (first levels : Nat) {n : Message} :
    ∀ ms : List Message, tooDeepIn? levels ms = some n →
      ∃ place name, Message.HoldsIn scope first ms place ⟨name, .message n⟩ ∧
        place.length = levels + 1
  | [] => by
    intro h
    cases h
  | m :: ms => by
    intro h
    rw [tooDeepIn?, Option.or_eq_some_iff] at h
    simp only [Message.holdsIn_cons]
    rcases h with h | ⟨_, h⟩
    · obtain ⟨place, x, hin, hlength⟩ :=
        exists_holdsIn_of_tooDeepIn? scope (first + 1) levels ms h
      exact ⟨place, x, .inr hin, hlength⟩
    · obtain ⟨place, x, hholds, hlength⟩ := exists_holds_of_tooDeep? scope levels m h
      exact ⟨.message first :: place, x, .inl ⟨place, rfl, hholds⟩, congrArg Nat.succ hlength⟩

end

theorem exists_holds_of_checkNesting {file : File} {e : LinkFault}
    (h : checkNesting file = .error e) :
    ∃ place name n, file.Holds place ⟨name, .message n⟩ ∧
      place.length = Message.maxNesting + 1 ∧ e = .nestedTooDeep n.name := by
  unfold checkNesting at h
  split at h
  · next n hn =>
    cases h
    obtain ⟨_, name, ⟨i, m, rest, hi, rfl, hm⟩, hlength⟩ :=
      exists_holdsIn_of_tooDeepIn? file.scope 0 _ file.messages hn
    rw [Nat.zero_add] at hlength
    exact ⟨_, name, n, .message hi hm, hlength, rfl⟩
  · cases h

end LinkFault

namespace File

variable {file : File} {place : List Step} {name : String} {m n : Message}

theorem length_le_or_pairAt (h : ∀ m ∈ file.messages, m.Nests Message.maxNesting)
    (hm : file.Holds place ⟨name, .message m⟩) :
    place.length ≤ Message.maxNesting ∨
      place.length = Message.maxNesting + 1 ∧ PairAt file.Holds place m := by
  cases hm with
  | message hi hm =>
    rcases (h _ (mem_of_getElem? hi)).length_lt_or_pairAt hm with
      hlt | ⟨hlength, outer, j, x, parent, rfl, hholds, hpair⟩
    · exact .inl hlt
    · exact .inr ⟨congrArg Nat.succ hlength,
        _ :: outer, j, x, parent, rfl, .message hi hholds, hpair⟩

end File

/-- A declared message lies within the limit for nested messages, and only the pair type of a map
field can lie below it, by one level. The linker therefore accepts the nesting exactly if no message
at the limit has a map field, and what it blames otherwise is such a pair type. -/
theorem nesting_of_parse {path source : String} {file : File} {locations : List Location}
    (h : parse path source = .ok (file, locations)) :
    (∀ place name m, file.Holds place ⟨name, .message m⟩ →
      place.length ≤ Message.maxNesting ∨
        place.length = Message.maxNesting + 1 ∧ PairAt file.Holds place m) ∧
    (LinkFault.checkNesting file = .ok () ↔
      ∀ place name m, file.Holds place ⟨name, .message m⟩ → place.length = Message.maxNesting →
        ∀ f ∈ m.fields, ∀ n ∈ m.nested, ¬f.DeclaresMap n) ∧
    ∀ e, LinkFault.checkNesting file = .error e →
      ∃ place name m, file.Holds place ⟨name, .message m⟩ ∧ place.length = Message.maxNesting ∧
        ∃ f ∈ m.fields, e = .nestedTooDeep (mapEntryName f.name) := by
  have hnests := nests_readFile path source
  rw [(readFile_of_parse h).1] at hnests
  have hplaces : ∀ place name m, file.Holds place ⟨name, .message m⟩ →
      place.length ≤ Message.maxNesting ∨
        place.length = Message.maxNesting + 1 ∧ PairAt file.Holds place m :=
    fun _ _ _ hm => File.length_le_or_pairAt hnests hm
  refine ⟨hplaces, ?_, ?_⟩
  · rw [LinkFault.checkNesting_eq_ok_iff]
    constructor
    · intro hok place name m hm hlength f hf n hn hmap
      obtain ⟨i, hi⟩ := List.getElem?_of_mem hn
      have hle := hok _ _ n (hm.snoc hi)
      rw [List.length_append, hlength, List.length_singleton] at hle
      omega
    · intro hnone place name m hm
      rcases hplaces place name m hm with
        hle | ⟨hlength, outer, i, x, parent, rfl, hholds, hi, f, hf, hmap⟩
      · exact hle
      · rw [List.length_append, List.length_singleton] at hlength
        exact absurd hmap
          (hnone outer x parent hholds (Nat.succ.inj hlength) f hf m (List.mem_of_getElem? hi))
  · intro e he
    obtain ⟨place, name, n, hn, hlength, rfl⟩ := LinkFault.exists_holds_of_checkNesting he
    rcases hplaces place name n hn with hle | ⟨_, outer, i, x, parent, rfl, hholds, _, f, hf, hmap⟩
    · omega
    · rw [List.length_append, List.length_singleton] at hlength
      obtain ⟨key, value, rfl⟩ := hmap.entry
      exact ⟨outer, x, parent, hholds, Nat.succ.inj hlength, f, hf, rfl⟩

def deepMap (levels : Nat) : List Char :=
  (List.replicate levels "message M\x7b".toList).flatten ++ "map<string,string>f=1;".toList ++
    List.replicate levels '\x7d'

theorem checkNesting_deepMap :
    (parse "a" (String.ofList (deepMap 32))).toOption.map
      (fun x => LinkFault.checkNesting x.1) = some (.error (.nestedTooDeep "FEntry")) := by
  rw [parse, readFile, Cursor.ofSource, lex, String.toList_ofList]
  decide +kernel

theorem exists_parse_deepMap :
    ∃ file locations, parse "a" (String.ofList (deepMap 32)) = .ok (file, locations) ∧
      LinkFault.checkNesting file = .error (.nestedTooDeep "FEntry") := by
  obtain ⟨⟨file, locations⟩, hparse, hcheck⟩ := Option.map_eq_some_iff.mp checkNesting_deepMap
  exact ⟨file, locations, toOption_eq_some_iff.mp hparse, hcheck⟩

/-- Thirty-two messages in each other are read with a map field in the innermost, which is then the
one at the limit. -/
theorem nesting_of_parse_deepMap :
    ∃ file locations, parse "a" (String.ofList (deepMap 32)) = .ok (file, locations) ∧
      ∃ place name m, file.Holds place ⟨name, .message m⟩ ∧ place.length = Message.maxNesting ∧
        ∃ f ∈ m.fields, mapEntryName f.name = "FEntry" := by
  obtain ⟨file, locations, hparse, hcheck⟩ := exists_parse_deepMap
  obtain ⟨place, name, m, hm, hlength, f, hf, heq⟩ := (nesting_of_parse hparse).2.2 _ hcheck
  have hname : mapEntryName f.name = "FEntry" := (LinkFault.nestedTooDeep.inj heq).symm
  exact ⟨file, locations, hparse, place, name, m, hm, hlength, f, hf, hname⟩

/-- The linker does not accept the nesting of every text that can be read. -/
theorem checkNesting_refuses_parsed :
    ¬∀ path source file locations, parse path source = .ok (file, locations) →
      LinkFault.checkNesting file = .ok () := by
  intro h
  obtain ⟨file, locations, hparse, hcheck⟩ := exists_parse_deepMap
  rw [h _ _ _ _ hparse] at hcheck
  cases hcheck

end ProtoSchema

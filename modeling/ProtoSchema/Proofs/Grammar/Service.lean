import ProtoSchema.Grammar.Service
import ProtoSchema.Proofs.Grammar.Option

/-!
Services and their methods, read and printed.
-/

namespace ProtoSchema

open Scan List

/-- The type a method takes or gives. A name that begins with `stream` needs the word before it. -/
def MethodType (streaming : Bool) (name : String) : Prop :=
  ∃ w, TypeName w name ∧ (streaming = true ∨ w ≠ .ident "stream")

structure Method.Written (m : Method) : Prop where
  name : IsIdentifier m.name
  input : MethodType m.clientStreaming m.inputType
  output : MethodType m.serverStreaming m.outputType
  options : Options.Written m.options

structure Service.Written (v : Service) : Prop where
  name : IsIdentifier v.name
  methods : ∀ m ∈ v.methods, m.Written
  options : Options.Written v.options

def Service.settings (v : Service) : Options :=
  v.options ++ v.methods.flatMap Method.options

namespace Production

variable {σ : Type} {s : σ} {w : Word}

theorem yields_methodType {Q : Bool × String → σ → Word → Prop}
    (h : ∀ streaming name w', MethodType streaming name → Q (streaming, name) s w') :
    Yields methodType s w Q := by
  refine .step (yields_symbol fun _ w' => .step (yields_eatWord (fun _ w'' => ?_) fun hw => ?_))
  · refine .step (yields_typeName fun name w₃ hname => .step (yields_symbol fun _ w₄ => ?_))
    exact yields_pure (h true name w₄ ⟨w'', hname, .inl rfl⟩)
  · refine .step (yields_typeName fun name w₃ hname => .step (yields_symbol fun _ w₄ => ?_))
    exact yields_pure (h false name w₄ ⟨w', hname, .inr hw⟩)

theorem yields_methodStatement {m : Method} (hm : m.Written) :
    Yields methodStatement m w fun _ m' _ => m'.Written := by
  refine .step (yields_eatSymbol (fun _ w' => yields_pure hm) fun _ => .step (yields_atWord ?_))
  split
  · exact yields_optionStatement fun t w' ht => { hm with options := hm.options.concat ht }
  · exact yields_expected

theorem yields_method {path : List Int} {Q : Method → σ → Word → Prop}
    (h : ∀ m w', m.Written → Q m s w') : Yields (method .resume path) s w Q := by
  refine .step (yields_here fun start => .step (yields_bump fun _ w' _ => ?_))
  refine .step (yields_identifier fun name w'' _ hname => ?_)
  refine .step (yields_methodType fun clientStreaming inputType w₃ hinput => ?_)
  refine .step (yields_word fun _ w₄ => ?_)
  refine .step (yields_methodType fun serverStreaming outputType w₅ houtput => ?_)
  have hbare : Method.Written { name, inputType, outputType, clientStreaming, serverStreaming } :=
    ⟨hname, hinput, houtput, Options.written_nil⟩
  refine .step (yields_eatSymbol (fun _ w₆ => ?_) fun _ => ?_)
  · have hblock : Yields (block .resume "method" methodStatement) _ w₆ fun _ m _ => m.Written :=
      yields_block (fun m w hm _ => yields_methodStatement hm) hbare
    refine .step (yields_build (hblock.mono fun _ m w₇ hm => .step (yields_record ?_)))
    exact yields_pure (h m w₇ hm)
  · refine .step (yields_symbol fun _ w₆ => .step (yields_pure (.step (yields_record ?_))))
    exact yields_pure (h _ w₆ hbare)

theorem yields_serviceStatement {v : Service} {path : List Int} (hv : v.Written) :
    Yields (serviceStatement .resume path) v w fun _ v' _ => v'.Written := by
  refine .step (yields_eatSymbol (fun _ w' => yields_pure hv) fun _ => .step (yields_atWord ?_))
  split
  · exact yields_optionStatement fun t w' ht => { hv with options := hv.options.concat ht }
  · refine .step (yields_atWord ?_)
    split
    · refine .step (yields_built (.step (yields_method fun m w' hm => yields_edit ?_)))
      exact { hv with methods := forall_mem_concat hv.methods hm }
    · exact yields_expected

theorem yields_service {path : List Int} {Q : Service → σ → Word → Prop}
    (h : ∀ v w', v.Written → Q v s w') : Yields (service .resume path) s w Q :=
  yields_declaration (fun _ hname => ⟨hname, forall_mem_nil _, Options.written_nil⟩)
    (fun _ _ hv => yields_serviceStatement hv) h

end Production

open Production

variable {σ : Type} {m : Method}

theorem MethodType.exists_reads {streaming : Bool} {name : String} (h : MethodType streaming name)
    (s : σ) :
    ∃ ws, Lexes isWordChar (Method.stream streaming ++ name) ws ∧
      ∀ rest, Reads methodType s (.symbol "(" :: ws ++ .symbol ")" :: rest) (streaming, name) s
        rest := by
  obtain ⟨w, hname, hw⟩ := h
  obtain ⟨ws, hlex, hreads⟩ := hname.exists_reads s
  cases streaming with
  | true =>
    refine ⟨_, hlex.behind [.ident "stream"] (by decide), fun rest => ?_⟩
    refine (reads_symbol "(").bind ((reads_eatWord "stream").bind ((hreads _ (by simp)).bind ?_))
    exact (reads_symbol ")").bind (reads_pure _)
  | false =>
    refine ⟨_, hlex.behind [] (by decide), fun rest => ?_⟩
    have hfront : Word.front (w :: ws ++ .symbol ")" :: rest) ≠ .ident "stream" := by simpa using hw
    refine (reads_symbol "(").bind ((reads_eatWord_of_ne hfront).bind ?_)
    exact (hreads _ (by simp)).bind ((reads_symbol ")").bind (reads_pure _))

namespace Production

theorem dispatches_method_option :
    Dispatches methodStatement (optionStatement fun s m => { m with options := m.options ++ [s] })
      "option" := by
  intro m m' ws ws' hfront hreads
  refine (reads_eatSymbol_of_ne (by simp [hfront])).bind ((reads_atWord "option").bind ?_)
  rw [if_pos (by simp [hfront])]
  exact hreads

theorem dispatches_service_option (path : List Int) :
    Dispatches (serviceStatement .resume path)
      (optionStatement fun s v => { v with options := v.options ++ [s] }) "option" := by
  intro v v' ws ws' hfront hreads
  refine (reads_eatSymbol_of_ne (by simp [hfront])).bind ((reads_atWord "option").bind ?_)
  rw [if_pos (by simp [hfront])]
  exact hreads

end Production

theorem Method.Written.exists_head (h : m.Written) (path : List Int) (s : σ) :
    ∃ ws, Lexes never ("rpc " ++ m.name ++ "(" ++ stream m.clientStreaming ++ m.inputType ++
        ") returns (" ++ stream m.serverStreaming ++ m.outputType ++ ")") (.ident "rpc" :: ws) ∧
      ∀ rest rest', (∀ start, Reads (do
        let m ←
          if ← eatSymbol "\x7b" then
            build { m with options := [] } (block .resume "method" methodStatement)
          else do
            endOfStatement
            pure { m with options := [] }
        record path start
        return m) s rest m s rest') →
      Reads (method .resume path) s (.ident "rpc" :: ws ++ rest) m s rest' := by
  obtain ⟨us, hinput, hreads⟩ := h.input.exists_reads s
  obtain ⟨vs, houtput, hreads'⟩ := h.output.exists_reads s
  refine ⟨.ident m.name :: .symbol "(" :: (us ++ .symbol ")" :: .ident "returns" :: .symbol "(" ::
    (vs ++ [.symbol ")"])), ?_, fun rest rest' htail => ?_⟩
  · have htypes : Lexes never (stream m.clientStreaming ++ m.inputType ++ (") returns (" ++
        (stream m.serverStreaming ++ m.outputType ++ ")"))) _ :=
      hinput.joined [.symbol ")", .ident "returns", .symbol "("] (by decide)
        (houtput.followed [.symbol ")"] (by decide))
    simp only [String.append_assoc] at htypes ⊢
    exact ((lexes_ident h.name).joined [.symbol "("] (by decide) htypes).behind [.ident "rpc"]
      (by decide)
  · simp only [cons_append, append_assoc, nil_append]
    refine .here fun start => .bump fun _ _ => (reads_identifier m.name _).bind ?_
    refine (hreads _).bind ((reads_word "returns").bind ((hreads' _).bind ?_))
    exact htail start

theorem Method.Written.exists_reads (h : m.Written) (hs : Options.Signed m.options)
    (path : List Int) (s : σ) :
    ∃ ws, LinesLex m.lines (.ident "rpc" :: ws) ∧
      ∀ rest, Reads (method .resume path) s (.ident "rpc" :: ws ++ rest) m s rest := by
  obtain ⟨us, hhead, hreads⟩ := h.exists_head path s
  unfold Method.lines
  dsimp only
  split
  · next hnone =>
    refine ⟨us ++ [.symbol ";"], .of (hhead.followed [.symbol ";"] (by decide)).any, fun rest => ?_⟩
    rw [cons_append, append_assoc]
    refine hreads _ _ fun start => (reads_eatSymbol_of_ne (by simp)).bind ?_
    refine (reads_symbol ";").bind ((reads_pure _).bind ((reads_record path start).bind ?_))
    rw [show { m with options := [] } = m by rw [← isEmpty_iff.mp hnone]]
    exact reads_pure m
  · obtain ⟨ws, hlex, hsteps⟩ := runs_options h.options hs dispatches_method_option
      (fun done => { m with options := done }) (fun _ _ => rfl) []
    refine ⟨us ++ .symbol "\x7b" :: (ws ++ [.symbol "\x7d"]), ?_, fun rest => ?_⟩
    · have hopening := hhead.followed (u := " \x7b") [.symbol "\x7b"] (by decide)
      have hlines := LinesLex.block hopening.any hlex lexes_closing
      simpa only [cons_append, append_assoc, nil_append] using hlines
    · rw [cons_append, append_assoc, cons_append, append_assoc]
      refine hreads _ _ fun start => (reads_eatSymbol "\x7b").bind ?_
      refine (reads_build (hsteps.reads_block _ rest)).bind ?_
      exact (reads_record path start).bind (reads_pure m)

theorem Service.Written.exists_reads {v : Service} (h : v.Written) (hs : Options.Signed v.settings)
    (path : List Int) (s : σ) :
    ∃ ws, LinesLex v.lines (.ident "service" :: ws) ∧
      ∀ rest, Reads (service .resume path) s (.ident "service" :: ws ++ rest) v s rest := by
  have hsigned : Options.Signed v.options := fun t ht => hs t (mem_append_left _ ht)
  have hmethods : ∀ done, ∀ m ∈ v.methods,
      Runs (serviceStatement .resume path) { v with methods := done } m.lines
        { v with methods := done ++ [m] } := by
    intro done m hm
    have hm' : Options.Signed m.options := fun t ht =>
      hs t (mem_append_right _ (mem_flatMap.mpr ⟨m, hm, ht⟩))
    obtain ⟨ws, hlex, hreads⟩ := (h.methods m hm).exists_reads hm'
      (Location.child path Location.serviceMethod done.length) { v with methods := done }
    refine .single hlex (by simp) fun rest => ?_
    refine (reads_eatSymbol_of_ne (by simp)).bind ((reads_atWord "option").bind ?_)
    rw [if_neg (by simp)]
    refine (reads_atWord "rpc").bind ?_
    rw [if_pos (by simp)]
    exact .built ((hreads rest).bind (reads_edit _))
  have hopts := runs_options h.options hsigned (dispatches_service_option path)
    (fun done => { name := v.name, options := done }) (fun _ _ => rfl) []
  have hall := hopts.append (Runs.flatMap (fun done => { v with methods := done }) hmethods [])
  exact hall.exists_reads (fun name => ({ name } : Service)) h.name (by decide) s

end ProtoSchema

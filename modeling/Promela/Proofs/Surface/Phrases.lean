import Promela.Proofs.Surface.Completeness
import Promela.Proofs.Surface.Rendering

/-! Readings of what declarations are made of: lists, sizes, fields, variables and their initializers.
Where one of these ends is seen from the token behind it, which goes on with no list and no expression. -/
namespace Promela
namespace Surface

/-- What follows goes on with no expression and with no list. -/
def Stops (rest : List Token) : Prop :=
  ∀ t ∈ rest.head?, t.kind.mayFollow = true ∧ t.kind ≠ .comma

theorem Stops.cons {k : TokenKind} {s : Span} {rest : List Token} (hk : k.mayFollow = true)
    (hcomma : k ≠ .comma) : Stops (⟨k, s⟩ :: rest) := by
  intro t ht
  cases ht
  exact ⟨hk, hcomma⟩

theorem Stops.mayFollow {rest : List Token} (h : Stops rest) : ∀ t ∈ rest.head?, t.kind.mayFollow = true :=
  fun t ht => (h t ht).1

theorem Stops.not_comma {rest us : List Token} {s : Span} (h : Stops rest) :
    rest ≠ ⟨.comma, s⟩ :: us := by
  rintro rfl
  exact (h _ rfl).2 rfl

theorem mayFollow_cons {k : TokenKind} {s : Span} {rest : List Token} (hk : k.mayFollow = true) :
    ∀ t ∈ (⟨k, s⟩ :: rest : List Token).head?, t.kind.mayFollow = true := by
  rintro t ⟨⟩
  exact hk

theorem yields_map_within {α : Type} {b c : Nat} {hbc : b ≤ c} {x : Except Rejection (Parsed α b)} {v : α}
    {rest : List Token} (h : Yields x v rest) : Yields (x.map (·.within hbc)) v rest := by
  obtain ⟨hlt, rfl⟩ := h
  exact ⟨Nat.lt_of_lt_of_le hlt hbc, rfl⟩

/-- A reader of lists that reads one phrase, and goes on behind a comma, reads every list of phrases. -/
theorem Listed.read {α β : Type} {phrase : α → List TokenKind → Prop} {bare : β → α}
    (One : List Token → β → List Token → Prop) (Many : List Token → List β → List Token → Prop)
    (hone : ∀ {a : α} {us : List Token}, phrase a (us.map Token.kind) → ∀ rest : List Token,
      (∀ t ∈ rest.head?, t.kind.mayFollow = true) → ∃ b, bare b = a ∧ One (us ++ rest) b rest)
    (hsingle : ∀ {ts rest : List Token} {b : β}, One ts b rest → Stops rest → Many ts [b] rest)
    (hmore : ∀ {ts us rest : List Token} {s : Span} {b : β} {bs : List β}, One ts b (⟨.comma, s⟩ :: us) →
      Many us bs rest → Many ts (b :: bs) rest)
    {as : List α} {ks : List TokenKind} (h : Listed phrase as ks) :
    ∀ {us : List Token}, us.map Token.kind = ks → ∀ {rest : List Token}, Stops rest →
      ∃ bs : List β, bs.map bare = as ∧ Many (us ++ rest) bs rest := by
  induction h with
  | single ha =>
    rintro us rfl rest hrest
    obtain ⟨b, rfl, hb⟩ := hone ha rest hrest.mayFollow
    exact ⟨[b], rfl, hsingle hb hrest⟩
  | more ha _ ih =>
    intro us hks rest hrest
    simp only [List.map_eq_append_iff, map_kind_eq_cons] at hks
    obtain ⟨us, _, rfl, rfl, s, vs, rfl, hvs⟩ := hks
    obtain ⟨bs, rfl, hbs⟩ := ih hvs hrest
    obtain ⟨b, rfl, hb⟩ := hone ha (⟨.comma, s⟩ :: (vs ++ rest)) (mayFollow_cons rfl)
    rw [List.append_assoc]
    exact ⟨b :: bs, rfl, hmore hb hbs⟩

section

variable {ts us rest : List Token} {s : Span}

theorem yields_names_single {what : String} {n : Located String} (h : Yields (ident what ts) n rest)
    (hrest : Stops rest) : Yields (names what ts) [n] rest := by
  rw [names]
  refine h.bind ?_
  dsimp only
  split
  next => exact absurd rfl hrest.not_comma
  next => exact yields_pure.mpr ⟨rfl, rfl⟩

theorem yields_names_more {what : String} {n : Located String} {ns : List (Located String)}
    (h : Yields (ident what ts) n (⟨.comma, s⟩ :: us)) (hns : Yields (names what us) ns rest) :
    Yields (names what ts) (n :: ns) rest := by
  rw [names]
  refine h.bind ?_
  refine hns.bind ?_
  exact yields_pure.mpr ⟨rfl, rfl⟩

theorem yields_names {what : String} {ns : List String} (h : Listed NamePhrase ns (us.map Token.kind))
    (hrest : Stops rest) :
    ∃ ns' : List (Located String), ns'.map (·.value) = ns ∧ Yields (names what (us ++ rest)) ns' rest := by
  refine h.read (fun ts n rest => Yields (ident what ts) n rest)
    (fun ts ns rest => Yields (names what ts) ns rest) (fun {n us} hn rest _ => ?_)
    yields_names_single yields_names_more rfl hrest
  obtain ⟨s, _, rfl, hnil⟩ := map_kind_eq_cons.mp hn
  obtain rfl := List.map_eq_nil_iff.mp hnil
  exact ⟨⟨n, s⟩, rfl, yields_ident.mpr rfl⟩

theorem yields_typeName (type : TypeName) :
    Yields (typeName (⟨typeToken type, s⟩ :: rest)) ⟨type, s⟩ rest := by
  cases type with
  | scalar t => cases t <;> exact yields_pure.mpr ⟨rfl, rfl⟩
  | record n => exact yields_pure.mpr ⟨rfl, rfl⟩

theorem yields_typeNames_single {t : Located TypeName} (h : Yields (typeName ts) t rest) (hrest : Stops rest) :
    Yields (typeNames ts) [t] rest := by
  rw [typeNames]
  refine h.bind ?_
  dsimp only
  split
  next => exact absurd rfl hrest.not_comma
  next => exact yields_pure.mpr ⟨rfl, rfl⟩

theorem yields_typeNames_more {t : Located TypeName} {types : List (Located TypeName)}
    (h : Yields (typeName ts) t (⟨.comma, s⟩ :: us)) (htypes : Yields (typeNames us) types rest) :
    Yields (typeNames ts) (t :: types) rest := by
  rw [typeNames]
  refine h.bind ?_
  refine htypes.bind ?_
  exact yields_pure.mpr ⟨rfl, rfl⟩

theorem yields_typeNames {types : List TypeName} (h : Listed TypePhrase types (us.map Token.kind))
    (hrest : Stops rest) :
    ∃ types' : List (Located TypeName), types'.map (·.value) = types ∧
      Yields (typeNames (us ++ rest)) types' rest := by
  refine h.read (fun ts type rest => Yields (typeName ts) type rest)
    (fun ts types rest => Yields (typeNames ts) types rest) (fun {type us} htype rest _ => ?_)
    yields_typeNames_single yields_typeNames_more rfl hrest
  obtain ⟨s, _, rfl, hnil⟩ := map_kind_eq_cons.mp htype
  obtain rfl := List.map_eq_nil_iff.mp hnil
  exact ⟨⟨type, s⟩, rfl, yields_typeName type⟩

theorem yields_size (n : BareSize) (s s₁ : Span) (rest : List Token) :
    ∃ n' : Size, n'.bare = n ∧ Yields (size (⟨n.token, s⟩ :: ⟨.closeBracket, s₁⟩ :: rest)) n' rest := by
  have hvalue : ∃ n' : Size, n'.bare = n ∧
      Yields (sizeValue (⟨n.token, s⟩ :: ⟨.closeBracket, s₁⟩ :: rest)) n'
        (⟨.closeBracket, s₁⟩ :: rest) := by
    cases n with
    | number v => exact ⟨.number ⟨v, s⟩, rfl, yields_pure.mpr ⟨rfl, rfl⟩⟩
    | named v => exact ⟨.named ⟨v, s⟩, rfl, yields_pure.mpr ⟨rfl, rfl⟩⟩
  obtain ⟨n', hbare, hn⟩ := hvalue
  refine ⟨n', hbare, hn.bind ?_⟩
  refine (yields_expect.mpr rfl).bind ?_
  exact yields_pure.mpr ⟨rfl, rfl⟩

/-- An opening bracket is a size. -/
theorem yields_arraySize_none (hrest : ∀ t ∈ rest.head?, t.kind ≠ .openBracket) :
    Yields (arraySize rest) none rest := by
  unfold arraySize
  split
  next => exact absurd rfl (hrest _ rfl)
  next => exact yields_pure.mpr ⟨rfl, rfl⟩

theorem yields_arraySize {size : Option BareSize} (h : us.map Token.kind = sizeTokens size)
    (hrest : ∀ t ∈ rest.head?, t.kind ≠ .openBracket) :
    ∃ size' : Option Size, size'.map Size.bare = size ∧ Yields (arraySize (us ++ rest)) size' rest := by
  cases size with
  | none =>
    obtain rfl := List.map_eq_nil_iff.mp h
    exact ⟨none, rfl, yields_arraySize_none hrest⟩
  | some n =>
    simp only [sizeTokens, map_kind_eq_cons, List.map_eq_nil_iff] at h
    obtain ⟨s, _, rfl, s₁, _, rfl, s₂, _, rfl, rfl⟩ := h
    obtain ⟨n', rfl, hn⟩ := yields_size n s₁ s₂ rest
    refine ⟨some n', rfl, hn.bind ?_⟩
    exact yields_pure.mpr ⟨rfl, rfl⟩

end

theorem ne_openBracket_of_mayFollow {rest : List Token} (h : ∀ t ∈ rest.head?, t.kind.mayFollow = true) :
    ∀ t ∈ rest.head?, t.kind ≠ .openBracket := by
  intro t ht hkind
  have hfollow := h t ht
  rw [hkind] at hfollow
  cases hfollow

/-! Fields of typedefs. -/

/-- The tokens start with the field, whose type was read before. -/
def FieldRead (type : Located TypeName) (ts : List Token) (f : FieldDecl) (rest : List Token) : Prop :=
  f.type = type ∧ ∃ us, Yields (ident "field name" ts) f.name us ∧ Yields (arraySize us) f.size rest

section

variable {ts us rest : List Token} {s : Span} {type : Located TypeName}

theorem yields_fields_single {f : FieldDecl} (h : FieldRead type ts f rest) (hrest : Stops rest) :
    Yields (fields type ts) [f] rest := by
  obtain ⟨rfl, us, hname, hsize⟩ := h
  rw [fields]
  refine hname.bind ?_
  refine hsize.bind ?_
  dsimp only
  split
  next => exact absurd rfl hrest.not_comma
  next => exact yields_pure.mpr ⟨rfl, rfl⟩

theorem yields_fields_more {f : FieldDecl} {fs : List FieldDecl} (h : FieldRead type ts f (⟨.comma, s⟩ :: us))
    (hfs : Yields (fields type us) fs rest) : Yields (fields type ts) (f :: fs) rest := by
  obtain ⟨rfl, vs, hname, hsize⟩ := h
  rw [fields]
  refine hname.bind ?_
  refine hsize.bind ?_
  refine hfs.bind ?_
  exact yields_pure.mpr ⟨rfl, rfl⟩

theorem yields_fields (type : Located TypeName) {fs : List BareField}
    (h : Listed (FieldPhrase type.value) fs (us.map Token.kind)) (hrest : Stops rest) :
    ∃ fs' : List FieldDecl, fs'.map FieldDecl.bare = fs ∧ Yields (fields type (us ++ rest)) fs' rest := by
  refine h.read (FieldRead type) (fun ts fs rest => Yields (fields type ts) fs rest)
    (fun {f us} hf rest hrest => ?_) yields_fields_single yields_fields_more rfl hrest
  obtain ⟨ftype, fname, fsize⟩ := f
  obtain ⟨rfl, hus⟩ := hf
  obtain ⟨s, vs, rfl, hvs⟩ := map_kind_eq_cons.mp hus
  obtain ⟨size, rfl, hsize⟩ := yields_arraySize hvs (ne_openBracket_of_mayFollow hrest)
  exact ⟨⟨type, ⟨fname, s⟩, size⟩, rfl, rfl, vs ++ rest, yields_ident.mpr rfl, hsize⟩

theorem yields_fieldGroups_last {fs : List FieldDecl} (htype : Yields (typeName ts) type us)
    (hfs : Yields (fields type us) fs (⟨.closeBrace, s⟩ :: rest)) :
    Yields (fieldGroups ts) fs (⟨.closeBrace, s⟩ :: rest) := by
  unfold fieldGroups
  split
  next => exact absurd htype not_yields_error
  next =>
    refine htype.bind ?_
    refine hfs.bind ?_
    exact yields_pure.mpr ⟨rfl, rfl⟩

theorem yields_fieldGroups_more {fs gs : List FieldDecl} (htype : Yields (typeName ts) type us)
    (hfs : Yields (fields type us) fs (⟨.semicolon, s⟩ :: rest)) {rest' : List Token}
    (hgs : Yields (fieldGroups rest) gs rest') : Yields (fieldGroups ts) (fs ++ gs) rest' := by
  unfold fieldGroups
  split
  next => exact absurd htype not_yields_error
  next =>
    refine htype.bind ?_
    refine hfs.bind ?_
    refine hgs.bind ?_
    exact yields_pure.mpr ⟨rfl, rfl⟩

end

theorem FieldsPhrase.read {fs : List BareField} {ks : List TokenKind} (h : FieldsPhrase fs ks) :
    ∀ {us : List Token}, us.map Token.kind = ks → ∀ (s : Span) (rest : List Token),
      ∃ fs' : List FieldDecl, fs'.map FieldDecl.bare = fs ∧
        Yields (fieldGroups (us ++ ⟨.closeBrace, s⟩ :: rest)) fs' (⟨.closeBrace, s⟩ :: rest) := by
  induction h with
  | none =>
    intro us hks s rest
    obtain rfl := List.map_eq_nil_iff.mp hks
    refine ⟨[], rfl, ?_⟩
    rw [List.nil_append, fieldGroups]
    exact yields_pure.mpr ⟨rfl, rfl⟩
  | @last type _ _ hgroup =>
    intro us hks s rest
    obtain ⟨s₁, us, rfl, rfl⟩ := map_kind_eq_cons.mp hks
    have hstops : Stops (⟨.closeBrace, s⟩ :: rest) := .cons rfl (by decide)
    obtain ⟨fs, rfl, hfs⟩ := yields_fields ⟨type, s₁⟩ hgroup hstops
    exact ⟨fs, rfl, yields_fieldGroups_last (yields_typeName type) hfs⟩
  | @more type _ _ _ _ hgroup _ ih =>
    intro us hks s rest
    simp only [List.map_eq_append_iff, map_kind_eq_cons] at hks
    obtain ⟨_, _, rfl, ⟨s₁, us, rfl, rfl⟩, s₂, vs, rfl, hvs⟩ := hks
    have hstops : Stops (⟨.semicolon, s₂⟩ :: (vs ++ ⟨.closeBrace, s⟩ :: rest)) := .cons rfl (by decide)
    obtain ⟨gs, rfl, hgs⟩ := ih hvs s rest
    obtain ⟨fs, rfl, hfs⟩ := yields_fields ⟨type, s₁⟩ hgroup hstops
    rw [List.append_assoc]
    exact ⟨fs ++ gs, List.map_append, yields_fieldGroups_more (yields_typeName type) hfs hgs⟩

/-! Variables and their initializers. -/

/-- No expression starts with a bracket. -/
theorem not_yields_binary_openBracket {n : Nat} {e : Expr} {s : Span} {ts rest : List Token} :
    ¬ Yields (binary n (⟨.openBracket, s⟩ :: ts)) e rest := by
  induction n generalizing e rest with
  | zero =>
    simp only [binary, unary, primary]
    exact not_yields_error
  | succ n ih =>
    intro h
    rw [binary] at h
    obtain ⟨left, us, _, hleft, -⟩ := yields_bind.mp h
    exact ih hleft

/-- The tokens start with the variable. -/
def DeclaratorRead (ts : List Token) (d : Declarator) (rest : List Token) : Prop :=
  ∃ us vs, Yields (ident "variable name" ts) d.name us ∧ Yields (arraySize us) d.size vs ∧
    Yields (optionalInitializer vs) d.init rest

section

variable {ts us rest : List Token} {s : Span}

theorem yields_initializer_value {e : Expr} (h : Yields (binary levels ts) e rest) :
    Yields (initializer ts) (.value e) rest := by
  unfold initializer
  split
  next => exact absurd h.shorter (Nat.not_lt_zero _)
  next => exact absurd h not_yields_binary_openBracket
  next =>
    refine h.bind ?_
    exact yields_pure.mpr ⟨rfl, rfl⟩

theorem yields_optionalInitializer_some {i : Initializer} (h : Yields (initializer ts) i rest) :
    Yields (optionalInitializer (⟨.assign, s⟩ :: ts)) (some i) rest := by
  refine h.bind ?_
  exact yields_pure.mpr ⟨rfl, rfl⟩

theorem yields_optionalInitializer_none (hrest : ∀ t ∈ rest.head?, t.kind.mayFollow = true) :
    Yields (optionalInitializer rest) none rest := by
  unfold optionalInitializer
  split
  next => cases hrest _ rfl
  next => exact yields_pure.mpr ⟨rfl, rfl⟩

theorem yields_optionalInitializer {init : Option BareInitializer}
    (h : InitializerPhrase init (us.map Token.kind)) (hrest : ∀ t ∈ rest.head?, t.kind.mayFollow = true) :
    ∃ init' : Option Initializer, init'.map Initializer.bare = init ∧
      Yields (optionalInitializer (us ++ rest)) init' rest := by
  generalize hks : us.map Token.kind = ks at h
  cases h with
  | none =>
    obtain rfl := List.map_eq_nil_iff.mp hks
    exact ⟨none, rfl, yields_optionalInitializer_none hrest⟩
  | value hsentence =>
    obtain ⟨s, us, rfl, rfl⟩ := map_kind_eq_cons.mp hks
    obtain ⟨e, rfl, he⟩ := (hsentence.read rfl).level (ends_of_mayFollow hrest)
    exact ⟨some (.value e), rfl, yields_optionalInitializer_some (yields_initializer_value he)⟩
  | channel capacity hfields =>
    simp only [List.map_eq_append_iff, map_kind_eq_cons, List.map_eq_nil_iff] at hks
    obtain ⟨_, _, rfl, ⟨s, _, rfl, s₁, _, rfl, s₂, _, rfl, s₃, _, rfl, s₄, _, rfl, s₅, us, rfl, rfl⟩,
      s₆, _, rfl, rfl⟩ := hks
    obtain ⟨n, rfl, hn⟩ := yields_size capacity s₂ s₃
      (⟨.of, s₄⟩ :: ⟨.openBrace, s₅⟩ :: (us ++ ⟨.closeBrace, s₆⟩ :: rest))
    have hstops : Stops (⟨.closeBrace, s₆⟩ :: rest) := .cons rfl (by decide)
    obtain ⟨types, rfl, htypes⟩ := yields_typeNames hfields hstops
    refine ⟨some (.channel n types (s₁.through s₆)), rfl, ?_⟩
    dsimp only [List.cons_append]
    rw [List.append_assoc]
    refine yields_optionalInitializer_some ?_
    refine hn.bind ?_
    refine (yields_expect.mpr rfl).bind ?_
    refine (yields_expect.mpr rfl).bind ?_
    refine htypes.bind ?_
    refine (yields_expect.mpr rfl).bind ?_
    exact yields_pure.mpr ⟨rfl, rfl⟩

theorem yields_declarators_single {d : Declarator} (h : DeclaratorRead ts d rest) (hrest : Stops rest) :
    Yields (declarators ts) [d] rest := by
  obtain ⟨us, vs, hname, hsize, hinit⟩ := h
  rw [declarators]
  refine hname.bind ?_
  refine hsize.bind ?_
  refine hinit.bind ?_
  dsimp only
  split
  next => exact absurd rfl hrest.not_comma
  next => exact yields_pure.mpr ⟨rfl, rfl⟩

theorem yields_declarators_more {d : Declarator} {ds : List Declarator}
    (h : DeclaratorRead ts d (⟨.comma, s⟩ :: us)) (hds : Yields (declarators us) ds rest) :
    Yields (declarators ts) (d :: ds) rest := by
  obtain ⟨vs, ws, hname, hsize, hinit⟩ := h
  rw [declarators]
  refine hname.bind ?_
  refine hsize.bind ?_
  refine hinit.bind ?_
  refine hds.bind ?_
  exact yields_pure.mpr ⟨rfl, rfl⟩

theorem InitializerPhrase.head_ne_openBracket {init : Option BareInitializer}
    (h : InitializerPhrase init (us.map Token.kind)) (hrest : ∀ t ∈ rest.head?, t.kind.mayFollow = true) :
    ∀ t ∈ (us ++ rest).head?, t.kind ≠ .openBracket := by
  cases us with
  | nil => exact ne_openBracket_of_mayFollow hrest
  | cons u us =>
    rintro t ⟨⟩ hkind
    rw [List.map_cons, hkind] at h
    cases h

theorem yields_declarators {ds : List BareDeclarator} (h : Listed DeclaratorPhrase ds (us.map Token.kind))
    (hrest : Stops rest) :
    ∃ ds' : List Declarator, ds'.map Declarator.bare = ds ∧ Yields (declarators (us ++ rest)) ds' rest := by
  refine h.read DeclaratorRead (fun ts ds rest => Yields (declarators ts) ds rest)
    (fun {d us} hd rest hrest => ?_) yields_declarators_single yields_declarators_more rfl hrest
  obtain ⟨name, size, init⟩ := d
  obtain ⟨ks, hinit, hus⟩ := hd
  simp only [List.cons_append, List.map_eq_append_iff, map_kind_eq_cons] at hus
  obtain ⟨s, _, rfl, us, vs, rfl, hus, rfl⟩ := hus
  obtain ⟨size, rfl, hsize⟩ := yields_arraySize hus (hinit.head_ne_openBracket hrest)
  obtain ⟨init, rfl, hoptional⟩ := yields_optionalInitializer hinit hrest
  refine ⟨⟨⟨name, s⟩, size, init⟩, rfl, us ++ (vs ++ rest), vs ++ rest, ?_, hsize, hoptional⟩
  rw [List.cons_append, List.append_assoc]
  exact yields_ident.mpr rfl

end

end Surface
end Promela

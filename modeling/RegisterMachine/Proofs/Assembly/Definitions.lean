import RegisterMachine.Proofs.Assembly.Outline

/-! Labels are what a text defines.

A name is defined by a label in front of a statement or by a data declaration, and stands for the
address of what follows. Both are bound in one table that does not see the case of letters, at two
places of a loop, while the address moves on; what comes of it is that every definition, and nothing
else, is in the table with the address of the item that follows it (`find?_labels`), and that two
definitions of one name stand at one address (`labels_are_definitions`). -/
namespace RegisterMachine

/-- In a data section, a statement declares this name for these values. -/
structure Statement.Declares (st : Statement) (current : Section) (kind name : String)
    (values : List Token) : Prop where
  current : current = .data
  plain : st.header? = none
  body : ∃ body token, st.body? = some body ∧ body.first.text.map Char.toLower = kind ∧
    body.rest = token :: values ∧ token.text = name

namespace Statement.Declares

variable {st : Statement} {current : Section} {kind name : String} {values : List Token}
  {item : Item}

theorem mem_names (h : st.Declares current kind name values) : name ∈ st.names current := by
  obtain ⟨rfl, hplain, body, token, hbody, -, hrest, rfl⟩ := h
  simp [names, hplain, hbody, declared, hrest]

theorem places (h : st.Declares current kind name values) : st.places current = true := by
  obtain ⟨rfl, hplain, body, token, hbody, -⟩ := h
  simp [Statement.places, hplain, hbody]

/-- A declaration takes its place for the bytes that its values stand for. -/
theorem encodes (h : st.Declares current kind name values) (hbecomes : st.Becomes current item) :
    ∃ bytes, DataDeclaration.Encodes kind values bytes ∧ item = .data (padWord bytes) := by
  obtain ⟨rfl, hplain, body, token, hbody, rfl, hrest, -⟩ := h
  cases hbecomes with
  | dataHead hheader => simp_all
  | codeStart hheader => simp_all
  | body _ hbody' hmeans =>
    obtain rfl := Option.some.inj (hbody.symm.trans hbody')
    cases hmeans with
    | data hrest' hbytes =>
      obtain ⟨-, rfl⟩ := List.cons.inj (hrest.symm.trans hrest')
      exact ⟨_, hbytes, rfl⟩

end Statement.Declares

namespace Program

variable {source : String} {origin : UInt32} {p : Program} {l : Layout}
  {statements front back : List Statement} {st : Statement}

/-- Whatever is bound, a statement binds it, to the address of the item that follows. -/
theorem find?_labels (h : assemble source origin = .ok p)
    (htokens : tokenize source = .ok statements) (hlayout : layout source origin = .ok l)
    (key : String) (address : UInt32) : p.labels.find? key = some address ↔
      ∃ front st back name, statements = front ++ st :: back ∧
        name ∈ st.names (Section.behind front) ∧ name.map Char.toLower = key ∧
          address = UInt32.ofNat (l.addressBehind origin.toNat front) := by
  obtain ⟨l', hlayout', -, -, hp, -⟩ := assemble_ok h
  obtain rfl := Except.ok.inj (hlayout'.symm.trans hlayout)
  obtain ⟨s, hrun, hl⟩ := run_of_layout htokens hlayout
  have hempty : (LayoutState.start origin.toNat).labels.find? key ≠ some address := nofun
  have hlabels : p.labels.find? key = some address ↔
      (LayoutState.start origin.toNat).Binds statements key address := by
    rw [hp, hl]
    exact (LayoutState.find?_of_run hrun).trans (or_iff_right hempty)
  rw [hlabels]
  constructor
  · rintro ⟨front, st, back, name, reached, rfl, hreached, hname, hkey, haddress⟩
    obtain ⟨s', before, after, hparts⟩ := parts_of_layout htokens hlayout
    obtain rfl := Except.ok.inj (hreached.symm.trans hparts.reached)
    rw [hparts.current] at hname
    rw [← hparts.address] at haddress
    exact ⟨front, st, back, name, rfl, hname, hkey, haddress⟩
  · rintro ⟨front, st, back, name, rfl, hname, hkey, haddress⟩
    obtain ⟨s', before, after, hparts⟩ := parts_of_layout htokens hlayout
    rw [← hparts.current] at hname
    rw [hparts.address] at haddress
    exact ⟨front, st, back, name, s', rfl, hparts.reached, hname, hkey, haddress⟩

/-- The bytes of a declaration stand in the image where its item does. -/
theorem exists_declared (h : assemble source origin = .ok p)
    (hlayout : layout source origin = .ok l) (htokens : tokenize source = .ok (front ++ st :: back))
    {kind name : String} {values : List Token}
    (hdeclares : st.Declares (Section.behind front) kind name values) :
    ∃ bytes offset, DataDeclaration.Encodes kind values bytes ∧
      l.addressBehind origin.toNat front = origin.toNat + offset ∧
      offset + (padWord bytes).length ≤ p.size ∧
      (p.bytes.drop offset).take (padWord bytes).length = padWord bytes := by
  obtain ⟨s, before, after, hparts⟩ := parts_of_layout htokens hlayout
  obtain ⟨placed, more, rfl, hstands, haddress⟩ := hparts.exists_placed hdeclares.places
  obtain ⟨bytes, hencodes, hitem⟩ := hdeclares.encodes hstands.becomes
  obtain ⟨own, hown, hlength, htake⟩ := emitted_at h hlayout hparts.items
  obtain rfl : padWord bytes = own := by
    simp only [Placed.bytes, hitem] at hown
    exact Except.ok.inj hown
  obtain ⟨l', hlayout', -, -, -, htiles, -⟩ := assemble_ok h
  obtain rfl := Except.ok.inj (hlayout'.symm.trans hlayout)
  have hstart := htiles.address_eq hparts.items
  have hstop := htiles.stop_eq
  have hsize := (size_of_layout h hlayout).1
  rw [hparts.items, List.map_append, List.map_cons, List.sum_append, List.sum_cons] at hstop
  refine ⟨bytes, placed.address - origin.toNat, hencodes, ?_, ?_, ?_⟩
  · rw [hparts.address, ← haddress]
    omega
  · omega
  · rw [hlength]
    exact htake

/-- **Labels are exactly the definitions.** The labels of an assembled program are the names, in
lower case, that its statements define as labels or by data declarations, each with the address of
the item that follows the definition, or of the end of the program if none does. The items stand for
the statements, in their order. As far behind the origin as its name stands (in a word, the distance
is one modulo `2 ^ 32`), the image holds the bytes of a declaration, padded to whole words. Two
definitions of one name, in any case of its letters, stand at one address. -/
theorem labels_are_definitions (h : assemble source origin = .ok p) :
    ∃ statements l, tokenize source = .ok statements ∧ layout source origin = .ok l ∧
      List.Forall₂ StandsFor (placing .code statements) l.items ∧
      (∀ key address, p.labels.find? key = some address ↔
        ∃ front st back name, statements = front ++ st :: back ∧
          name ∈ st.names (Section.behind front) ∧ name.map Char.toLower = key ∧
            address = UInt32.ofNat (l.addressBehind origin.toNat front)) ∧
      (∀ front st back kind name values, statements = front ++ st :: back →
        st.Declares (Section.behind front) kind name values →
          ∃ bytes address offset, DataDeclaration.Encodes kind values bytes ∧
            p.label? name = some address ∧ (address - origin).toNat = offset % 2 ^ 32 ∧
            offset + (padWord bytes).length ≤ p.size ∧
            (p.bytes.drop offset).take (padWord bytes).length = padWord bytes) ∧
      ∀ front st back name front' st' back' name',
        statements = front ++ st :: back → name ∈ st.names (Section.behind front) →
        statements = front' ++ st' :: back' → name' ∈ st'.names (Section.behind front') →
        name.map Char.toLower = name'.map Char.toLower →
          UInt32.ofNat (l.addressBehind origin.toNat front) =
            UInt32.ofNat (l.addressBehind origin.toNat front') := by
  obtain ⟨l, hlayout, -⟩ := assemble_ok h
  obtain ⟨statements, htokens, -⟩ := bind_ok_iff.mp hlayout
  have hlabels := find?_labels h htokens hlayout
  refine ⟨statements, l, htokens, hlayout, stands_of_layout htokens hlayout, hlabels, ?_, ?_⟩
  · rintro front st back kind name values rfl hdeclares
    obtain ⟨bytes, offset, hencodes, hoffset, hend, hbytes⟩ :=
      exists_declared h hlayout htokens hdeclares
    have hlabel := (hlabels _ _).mpr ⟨front, st, back, name, rfl, hdeclares.mem_names, rfl, rfl⟩
    refine ⟨bytes, _, offset, hencodes, hlabel, ?_, hend, hbytes⟩
    rw [hoffset, UInt32.ofNat_add, UInt32.ofNat_toNat, UInt32.add_comm,
      UInt32.add_sub_cancel]
    exact UInt32.toNat_ofNat'
  · rintro front st back name front' st' back' name' hsplit hname hsplit' hname' hsame
    have hfind := (hlabels _ _).mpr ⟨front, st, back, name, hsplit, hname, rfl, rfl⟩
    have hfind' := (hlabels _ _).mpr ⟨front', st', back', name', hsplit', hname', rfl, rfl⟩
    rw [hsame, hfind'] at hfind
    exact (Option.some.inj hfind).symm

/-- A text of two definitions, the second with nothing behind it. -/
theorem labels_are_definitions_text : ∃ p,
    assemble ".data; string Msg \"hi\"; .code; :end;" 96 = .ok p ∧
      p.labels.find? "end" = some 104 ∧ p.label? "Msg" = some 100 ∧
      (p.bytes.drop 4).take 4 = Text.utf8 "hi" ++ [0, 0] := by
  let data : Statement := ⟨⟨".data", ⟨1, 1⟩, false⟩, []⟩
  let text : Token := ⟨"hi", ⟨1, 19⟩, true⟩
  let message : Statement := ⟨⟨"string", ⟨1, 8⟩, false⟩, [⟨"Msg", ⟨1, 15⟩, false⟩, text]⟩
  let code : Statement := ⟨⟨".code", ⟨1, 25⟩, false⟩, []⟩
  let final : Statement := ⟨⟨":end", ⟨1, 32⟩, false⟩, []⟩
  have htokens : tokenize ".data; string Msg \"hi\"; .code; :end;" =
      .ok [data, message, code, final] := by decide +kernel
  have hassembled : (assemble ".data; string Msg \"hi\"; .code; :end;" 96).toOption.map
      Program.size = some 8 := by decide +kernel
  obtain ⟨p, hp, hsize⟩ := Option.map_eq_some_iff.mp hassembled
  have hassemble := ok_of_toOption hp
  obtain ⟨statements, l, htokens', hlayout, -, hlabels, hdeclared, -⟩ :=
    labels_are_definitions hassemble
  obtain rfl := Except.ok.inj (htokens.symm.trans htokens')
  have hplaces : (layout ".data; string Msg \"hi\"; .code; :end;" 96).toOption.map (fun l =>
      (l.addressBehind 96 [data, message, code], l.addressBehind 96 [data])) =
        some (104, 100) := by decide +kernel
  rw [hlayout, toOption_ok, Option.map_some, Option.some.injEq, Prod.mk.injEq] at hplaces
  have hnames : "end" ∈ final.names (Section.behind [data, message, code]) ∧
      Section.behind [data] = .data ∧ message.header? = none ∧
      message.body? = some message ∧ message.first.text.map Char.toLower = "string" ∧
      "end".map Char.toLower = "end" := by decide +kernel
  obtain ⟨hend, hsection, hplain, hbody, hkind, hlower⟩ := hnames
  have hdeclares : message.Declares (Section.behind [data]) "string" "Msg" [text] :=
    ⟨hsection, hplain, message, _, hbody, hkind, rfl, rfl⟩
  obtain ⟨bytes, address, offset, hencodes, haddress, hoffset, hinside, hbytes⟩ :=
    hdeclared [data] message [code, final] _ _ _ rfl hdeclares
  have hmessage : p.label? "Msg" = some (UInt32.ofNat (l.addressBehind 96 [data])) :=
    (hlabels _ _).mpr ⟨[data], message, [code, final], "Msg", rfl, hdeclares.mem_names, rfl, rfl⟩
  rw [hplaces.2] at hmessage
  refine ⟨p, hassemble, ?_, hmessage, ?_⟩
  · refine (hlabels "end" 104).mpr ⟨[data, message, code], final, [], "end", rfl, hend, hlower, ?_⟩
    exact (congrArg UInt32.ofNat hplaces.1).symm
  · obtain rfl : bytes = Text.utf8 "hi" ++ [0] := by
      generalize hkind : "string" = kind at hencodes
      cases hencodes with
      | string _ => rfl
      | _ => exact absurd hkind (by decide)
    have hpadded : padWord (Text.utf8 "hi" ++ [0]) = Text.utf8 "hi" ++ [0, 0] ∧
        (padWord (Text.utf8 "hi" ++ [0])).length = 4 := by decide +kernel
    obtain rfl : address = 100 := Option.some.inj (haddress.symm.trans hmessage)
    have hfour : 4 = offset % 2 ^ 32 := hoffset
    rw [hpadded.2] at hinside hbytes
    rw [hpadded.1] at hbytes
    obtain rfl : offset = 4 := by omega
    exact hbytes

end Program

end RegisterMachine

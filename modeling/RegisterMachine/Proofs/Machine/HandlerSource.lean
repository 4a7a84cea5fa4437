import RegisterMachine.Machine.Load
import RegisterMachine.Proofs.Assembly.Movable

/-! What the assembler makes of the built-in fault handlers.

The text of the handlers is put together from pieces, one declaration and one piece of
code for each fault. Read as a list of characters (`toList_source`), it is small enough to
be scanned and laid out by evaluation. The layout from address zero is a jump over the
messages, the messages, and then for each fault the same eight instructions
(`layout_source`). They use their labels only as whole addresses and word offsets
(`absolute_items`), so the text can be assembled for other addresses too. -/
namespace RegisterMachine.Machine.Handler

/-! ### The text -/

def declarationText (i : Interrupt) : List Char :=
  "string __msg_".toList ++ (toString i.index).toList ++ " \"".toList ++ i.notice.toList
    ++ "\\n\";\n".toList

def codeText (i : Interrupt) : List Char :=
  let n := (toString i.index).toList
  let stop := ";\n".toList
  ":".toList ++ ("__fault_".toList ++ n) ++ stop
    ++ ("loadwordi r1, @__msg_".toList ++ n ++ stop)
    ++ (":__print_".toList ++ n ++ stop)
    ++ "loadbyte r2, r1, 0;\n".toList
    ++ "cmp r2, 0;\n".toList
    ++ ("jz @__done_".toList ++ n ++ stop)
    ++ "putchar r2;\n".toList
    ++ "inc r1;\n".toList
    ++ ("jmp @__print_".toList ++ n ++ stop)
    ++ (":__done_".toList ++ n ++ stop)
    ++ "halt;\n".toList

/-- The characters of `source`, piece by piece. -/
def sourceText : List Char :=
  ".data;\n".toList ++ Interrupt.faults.flatMap declarationText ++ ".code;\n".toList
    ++ Interrupt.faults.flatMap codeText

theorem toList_declaration (i : Interrupt) : (declaration i).toList = declarationText i := by
  unfold declaration
  repeat rw [String.toList_append]
  rfl

theorem toList_code (i : Interrupt) : (code i).toList = codeText i := by
  have hlabel : (toString (label i)).toList = "__fault_".toList ++ (toString i.index).toList :=
    String.toList_append
  unfold code
  repeat rw [String.toList_append]
  rw [hlabel]
  rfl

theorem toList_source : source.toList = sourceText := by
  unfold source
  iterate 3 rw [String.toList_append]
  rw [String.toList_join, String.toList_join, List.flatMap_map, List.flatMap_map]
  simp only [toList_declaration, toList_code]
  rfl

/-! ### The layout -/

/-- The bytes that a handler prints: the notice of its fault and a line feed. -/
def printed (i : Interrupt) : List UInt8 := Text.utf8 i.notice ++ [10]

/-- The message of a fault as it stands in memory. -/
def message (i : Interrupt) : List UInt8 := padWord (printed i ++ [0])

/-- Where the message stands, counted from the beginning of the program. -/
def messageStart (i : Interrupt) : Nat :=
  4 + ((Interrupt.faults.take i.index).flatMap message).length

/-- Where the code of a handler begins, counted from the beginning of the program. -/
def entry (i : Interrupt) : Nat := 144 + 36 * i.index

/-- The size of all handlers with their messages. -/
def size : Nat := 360

/-- The code of a handler is nine words. -/
theorem entry_inside {i : Interrupt} (h : i ∈ Interrupt.faults) :
    entry i % 4 = 0 ∧ entry i + 36 ≤ size := by
  have hall : ∀ i ∈ Interrupt.faults, entry i % 4 = 0 ∧ entry i + 36 ≤ size := by decide
  exact hall i h

/-- A message ends in front of the code, and a zero behind what is printed ends it. -/
theorem message_inside {i : Interrupt} (h : i ∈ Interrupt.faults) :
    messageStart i + (message i).length ≤ size ∧ (∀ b ∈ printed i, b ≠ 0) ∧
      ∃ padding, message i = printed i ++ [0] ++ padding := by
  have hall : ∀ i ∈ Interrupt.faults,
      messageStart i + (message i).length ≤ size ∧ ∀ b ∈ printed i, b ≠ 0 := by decide +kernel
  obtain ⟨hend, hnonzero⟩ := hall i h
  exact ⟨hend, hnonzero, _, rfl⟩

/-- The eight instructions of a handler. -/
def codeItems (i : Interrupt) : List Placed :=
  let n := toString i.index
  let line := 9 + 11 * i.index
  let token (text : String) (below column : Nat) : Token := ⟨text, ⟨line + below, column⟩, false⟩
  let item (m : Mnemonic) (operands : List Token) (offset size below : Nat) : Placed :=
    ⟨.instruction m .always (m.text.map Char.toLower) operands, entry i + offset, size,
      ⟨line + below, 1⟩⟩
  [item .loadWordI [token "r1" 1 11, token ("@__msg_" ++ n) 1 15] 0 8 1,
    item (.native .loadByte) [token "r2" 3 10, token "r1" 3 14, token "0" 3 18] 8 4 3,
    item (.native .cmp) [token "r2" 4 5, token "0" 4 9] 12 4 4,
    item (.native .jz) [token ("@__done_" ++ n) 5 4] 16 4 5,
    item (.native .putchar) [token "r2" 6 9] 20 4 6,
    item (.native .inc) [token "r1" 7 5] 24 4 7,
    item (.native .jmp) [token ("@__print_" ++ n) 8 5] 28 4 8,
    item (.native .halt) [] 32 4 10]

def dataItem (i : Interrupt) : Placed :=
  ⟨.data (message i), messageStart i, (message i).length, ⟨2 + i.index, 1⟩⟩

def items : List Placed :=
  ⟨.dataHead, 0, 4, ⟨1, 1⟩⟩ :: Interrupt.faults.map dataItem ++
    ⟨.codeStart, 144, 0, ⟨8, 1⟩⟩ :: Interrupt.faults.flatMap codeItems

/-- Where the labels of a fault stand. -/
structure Labels (t : LabelTable) (i : Interrupt) : Prop where
  entry : t.lookup? (label i) = some (UInt32.ofNat (entry i))
  message : t.lookup? ("__msg_" ++ toString i.index) = some (UInt32.ofNat (messageStart i))
  print : t.lookup? ("__print_" ++ toString i.index) = some (UInt32.ofNat (Handler.entry i + 8))
  stop : t.lookup? ("__done_" ++ toString i.index) = some (UInt32.ofNat (Handler.entry i + 32))

theorem labels_iff {t : LabelTable} {i : Interrupt} : Labels t i ↔
    t.lookup? (label i) = some (UInt32.ofNat (entry i)) ∧
      t.lookup? ("__msg_" ++ toString i.index) = some (UInt32.ofNat (messageStart i)) ∧
      t.lookup? ("__print_" ++ toString i.index) = some (UInt32.ofNat (entry i + 8)) ∧
      t.lookup? ("__done_" ++ toString i.index) = some (UInt32.ofNat (entry i + 32)) :=
  ⟨fun h => ⟨h.entry, h.message, h.print, h.stop⟩, fun ⟨h, h', h'', h'''⟩ => ⟨h, h', h'', h'''⟩⟩

instance (t : LabelTable) (i : Interrupt) : Decidable (Labels t i) :=
  decidable_of_iff _ labels_iff.symm

/-- The layout of the handlers from address zero on. -/
def Laid (l : Layout) : Prop :=
  l.items = items ∧ l.size = size ∧ l.stackSize = none ∧
    (∀ i ∈ Interrupt.faults, Labels l.labels i) ∧
    (∀ e ∈ l.labels.entries, e.2.toNat ≤ size) ∧
    (Layout.emit l.labels l.size l.items).toOption.isSome = true

instance (l : Layout) : Decidable (Laid l) := inferInstanceAs (Decidable (_ ∧ _))

theorem layout_source : ∃ statements l, tokenize source = .ok statements ∧
    Layout.ofStatements 0 statements = .ok l ∧ Laid l := by
  have hlaid : ((Scan.start.run sourceText).toOption.bind fun s =>
      s.finish.toOption.bind fun statements =>
        (Layout.ofStatements 0 statements).toOption.map fun l => decide (Laid l)) = some true := by
    decide +kernel
  obtain ⟨s, hs, hlaid⟩ := Option.bind_eq_some_iff.mp hlaid
  obtain ⟨statements, hstatements, hlaid⟩ := Option.bind_eq_some_iff.mp hlaid
  obtain ⟨l, hl, hlaid⟩ := Option.map_eq_some_iff.mp hlaid
  refine ⟨statements, l, ?_, ok_of_toOption hl, of_decide_eq_true hlaid⟩
  rw [tokenize, toList_source]
  exact bind_ok_iff.mpr ⟨s, ok_of_toOption hs, ok_of_toOption hstatements⟩

theorem absolute_items : ∀ p ∈ items, p.item.Absolute := by decide +kernel

end RegisterMachine.Machine.Handler

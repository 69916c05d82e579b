import ChocoRv.Proofs.Dumps
import ChocoRv.Proofs.Listings

/-!
# Quoted strings

Strings are written between quotes in assembly as they are in sources. Two scanners read them, the
lexer and the reader of assembly lines, and both find the closing quote where the writer put it.
-/

namespace ChocoRv

/-- A string literal of `len` bytes that denotes `s` stands at the start of the text. -/
def Lexer.ReadsString (text s : Bytes) (len : Nat) : Prop :=
  ∃ cs n, text = '"'.toUInt8 :: cs ∧ lexeme '"'.toUInt8 cs = .ok (.string s, n) ∧ len = n + 1

open Lexer (ReadsString)

namespace Bytes

variable {s text rest : Bytes}

theorem length_quote (s : Bytes) : s.quote.length = (s.flatMap escape).length + 2 := by
  simp [quote]

/-- What is written is read again, whatever follows. -/
theorem readsString_quote (h : ∀ b ∈ s, Sexp.Plain b) (rest : Bytes) :
    ReadsString (s.quote ++ rest) s s.quote.length := by
  refine ⟨s.flatMap escape ++ '"'.toUInt8 :: rest, (s.flatMap escape).length + 1, by simp [quote], ?_,
    length_quote s⟩
  rw [Lexer.lexeme, if_pos rfl, Lexer.stringBody_of_unescapes (Sexp.unescapes_escape h)]

/-- What a literal denotes can be written. -/
theorem plain_of_readsString {len : Nat} (h : ReadsString text s len) : ∀ b ∈ s, Sexp.Plain b := by
  obtain ⟨cs, n, -, hread, -⟩ := h
  obtain ⟨⟨⟨body, -, hbody⟩, -⟩, -⟩ := Lexer.lexeme_spelled hread
  exact hbody.plain_content

end Bytes

namespace Asm

open Bytes

variable {body pad comment : Bytes}

theorem closed_white (h : ∀ b ∈ pad, Byte.isWhite b = true) : Closed pad := by
  refine closed_of_plain fun b hb => ⟨?_, ?_⟩ <;>
    (rintro rfl; exact absurd (h _ hb) (by decide))

/-- Trimming a line leaves what stands between the spaces in front and a comment. -/
theorem trimLine_padded (n : Nat) (hbody : Closed body) (hframed : Framed body)
    (hpad : ∀ b ∈ pad, Byte.isWhite b = true) :
    trimLine (List.replicate n space ++ body ++ pad) = body ∧
      trimLine (List.replicate n space ++ body ++ pad ++ hash :: comment) = body := by
  have hspaces : Closed (List.replicate n space) :=
    closed_of_plain fun b hb => List.eq_of_mem_replicate hb ▸ by decide
  have hclosed := (hspaces.append hbody).append (closed_white hpad)
  have htrim : trim (List.replicate n space ++ body ++ pad) = body := by
    have hbare := hframed.trim n 0
    rw [List.replicate_zero, List.append_nil] at hbare
    obtain ⟨⟨c, rest, rfl, hc⟩, -⟩ := hframed
    rw [Bytes.trim, List.append_assoc, trimStart_spaces, List.cons_append, trimStart_visible hc,
      ← List.cons_append, trimEnd_white _ hpad]
    rwa [Bytes.trim, trimStart_spaces, trimStart_visible hc] at hbare
  have hcomment : uncomment false (hash :: comment) = [] := by
    rw [uncomment.eq_def]
    rfl
  refine ⟨by rw [trimLine, hclosed.uncomment, htrim], ?_⟩
  rw [trimLine, hclosed, hcomment, List.append_nil, htrim]

/-- A directive with a string is read as a whole. -/
theorem trimLine_string (s : Bytes) (hpad : ∀ b ∈ pad, Byte.isWhite b = true) :
    trimLine (txt "  .string " ++ s.quote ++ pad) = txt ".string " ++ s.quote ∧
      trimLine (txt "  .string " ++ s.quote ++ pad ++ hash :: comment) =
        txt ".string " ++ s.quote := by
  have hclosed : Closed (txt ".string " ++ s.quote) :=
    (closed_of_all (by decide)).append (closed_quote s)
  obtain ⟨rest, c, hend, hc⟩ := (Item.piece_quote s).framed.last
  have hframed : Framed (txt ".string " ++ s.quote) :=
    ⟨⟨_, _, rfl, by decide⟩, txt ".string " ++ rest, c, by rw [hend, List.append_assoc], hc⟩
  exact trimLine_padded 2 hclosed hframed hpad

end Asm

/-- Strings of the bytes that a literal can denote survive quoting, and so do the contents of all
literals. Of any string whatever the quoted form is one line, and a reader of lines takes it as a
whole, with white space and a comment after it taken away. -/
theorem quoting_preserves :
    (∀ s : Bytes, (∀ b ∈ s, Sexp.Plain b) → ∀ rest, ReadsString (s.quote ++ rest) s s.quote.length) ∧
    (∀ text s len, ReadsString text s len → ∀ rest, ReadsString (s.quote ++ rest) s s.quote.length) ∧
    ∀ s pad comment : Bytes, (∀ b ∈ pad, Byte.isWhite b = true) → Asm.newline ∉ s.quote ∧
      Asm.trimLine (txt "  .string " ++ s.quote ++ pad) = txt ".string " ++ s.quote ∧
      Asm.trimLine (txt "  .string " ++ s.quote ++ pad ++ Asm.hash :: comment) =
        txt ".string " ++ s.quote := by
  refine ⟨fun s hs rest => Bytes.readsString_quote hs rest, fun text s len hread rest => ?_,
    fun s pad comment hpad => ?_⟩
  · exact Bytes.readsString_quote (Bytes.plain_of_readsString hread) rest
  · exact ⟨Asm.Item.newline_notMem_quote s, Asm.trimLine_string s hpad⟩

/-- A text with a quote, with what would start a comment and with a backslash at its end. -/
theorem quoting_preserves_mixed :
    (txt "a\"#\\").quote = txt "\"a\\\"#\\\\\"" ∧
      ReadsString ((txt "a\"#\\").quote ++ txt "\"") (txt "a\"#\\") (txt "a\"#\\").quote.length ∧
      Asm.trimLine (txt "  .string " ++ (txt "a\"#\\").quote ++ txt " \t" ++ Asm.hash :: txt "\"") =
        txt ".string " ++ (txt "a\"#\\").quote := by
  refine ⟨by decide, ?_, ?_⟩
  · exact quoting_preserves.1 (txt "a\"#\\") (by decide +kernel) (txt "\"")
  · exact (quoting_preserves.2.2 (txt "a\"#\\") (txt " \t") (txt "\"") (by decide +kernel)).2.2

end ChocoRv

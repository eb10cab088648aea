import Dobby.Base.Rfc5322
import Dobby.Model.Smtp

namespace Dobby.Email
open CString Rfc5322

/-- The message that these arguments stand for. -/
def given (address msgId toAddr subject body : Str) : Message where
  fields :=
    [ ⟨"From".toList, " Dobby <".toList ++ address ++ ['>']⟩,
      ⟨"To".toList, " <".toList ++ toAddr ++ ['>']⟩,
      ⟨"Subject".toList, ' ' :: subject⟩,
      ⟨"Message-ID".toList, ' ' :: msgId⟩,
      ⟨"Content-Type".toList, " text/plain; charset=utf-8".toList⟩ ]
  body := body

/-- The tool hands over what it is given. -/
theorem emailToolExecute_mail {al : Option Allowlist} {sends : Smtp → Bool}
    {toAddr subject body : Str} {mail : Smtp}
    (h : (emailToolExecute (some al) sends (some toAddr) (some subject) (some body)).2 = some mail) :
    mail = smtpSend toAddr subject body none := by
  unfold emailToolExecute at h
  dsimp only [Option.getD_some] at h
  repeat' split at h
  all_goals cases h
  all_goals rfl

/-- Without threading headers the payload is the message written out. -/
theorem format_eq_render (address msgId toAddr subject body : Str) :
    (smtpSend toAddr subject body none).format address msgId =
      render (given address msgId toAddr subject body) := by
  have hfrom : "From: Dobby <".toList = "From".toList ++ ':' :: " Dobby <".toList := by decide +kernel
  have hto : "To: <".toList = "To".toList ++ ':' :: " <".toList := by decide +kernel
  have hclose : ">\r\n".toList = '>' :: Crlf.crlf := by decide +kernel
  have hsubject : "Subject: ".toList = "Subject".toList ++ ':' :: [' '] := by decide +kernel
  have hid : "Message-ID: ".toList = "Message-ID".toList ++ ':' :: [' '] := by decide +kernel
  have htype : "Content-Type: text/plain; charset=utf-8\r\n".toList =
      "Content-Type".toList ++ ':' :: (" text/plain; charset=utf-8".toList ++ Crlf.crlf) := by
    decide +kernel
  have hbreak : "\r\n".toList = Crlf.crlf := rfl
  have hthreading : (smtpSend toAddr subject body none).threading = [] := rfl
  unfold Smtp.format render given
  rw [hfrom, hto, hclose, hsubject, hid, htype, hbreak, hthreading]
  simp [Crlf.text_cons, Field.line, smtpSend]

theorem messageId_unbroken {address : Str} (h : Unbroken address) (time : Nat) :
    Unbroken (messageId address time) := by
  have hdigits : Unbroken (Nat.toDigits 10 time) := by
    have hdigit : ∀ c ∈ Nat.toDigits 10 time, c.isDigit = true :=
      fun c hc => Nat.isDigit_of_mem_toDigits (by decide) (by decide) hc
    constructor <;> intro hmem <;> exact absurd (hdigit _ hmem) (by decide)
  have hwhole : Unbroken ('<' :: (Nat.toDigits 10 time ++ '.' :: (address ++ ['>']))) := by
    have hopen : Unbroken ['<'] := by decide
    have hdot : Unbroken ['.'] := by decide
    have hclose : Unbroken ['>'] := by decide
    exact hopen.append (hdigits.append (hdot.append (h.append hclose)))
  exact hwhole.sublist (List.take_sublist _ _)

theorem given_plain {address toAddr subject : Str} (haddress : Unbroken address)
    (hto : Unbroken toAddr) (hsubject : Unbroken subject) (time : Nat) (body : Str) :
    ∀ f ∈ (given address (messageId address time) toAddr subject body).fields, f.Plain := by
  have hspace : Unbroken [' '] := by decide
  have hclose : Unbroken ['>'] := by decide
  have hfrom : Unbroken " Dobby <".toList := by decide
  have hopen : Unbroken " <".toList := by decide
  have plain (name value : Str) (hname : name ≠ [] ∧ name.all isNameChar = true)
      (hvalue : Unbroken value) : Field.Plain ⟨name, value⟩ := ⟨hname.1, hname.2, hvalue⟩
  intro f hf
  simp only [given, List.mem_cons, List.not_mem_nil, or_false] at hf
  rcases hf with rfl | rfl | rfl | rfl | rfl
  · exact plain _ _ (by decide) ((hfrom.append haddress).append hclose)
  · exact plain _ _ (by decide) ((hopen.append hto).append hclose)
  · exact plain _ _ (by decide) (hspace.append hsubject)
  · exact plain _ _ (by decide) (hspace.append (messageId_unbroken haddress time))
  · exact plain _ _ (by decide) (by decide)

/-- A mail that the tool accepts and the payload holds reads back as what was given exactly
when neither the recipient nor the subject nor the channel's address has a line break in it. -/
theorem accepted_mail_parses_iff (al : Option Allowlist) (sends : Smtp → Bool)
    (address : Str) (time : Nat) (toAddr subject body : Str) (mail : Smtp)
    (haccepted : (emailToolExecute (some al) sends (some toAddr) (some subject) (some body)).2 =
      some mail)
    (hfits : (mail.format address (messageId address time)).length < payloadMax) :
    parse (snprintf payloadMax (mail.format address (messageId address time))) =
        some (given address (messageId address time) toAddr subject body) ↔
      Unbroken toAddr ∧ Unbroken subject ∧ Unbroken address := by
  rw [snprintf_fits hfits, emailToolExecute_mail haccepted, format_eq_render]
  constructor
  · intro h
    have hfields := parse_unbroken h
    simp only [given, List.forall_mem_cons] at hfields
    obtain ⟨hfrom, hto, hsubject, -⟩ := hfields
    refine ⟨hto.sublist ?_, hsubject.sublist ?_, hfrom.sublist ?_⟩
    · exact (List.sublist_append_right _ _).trans (List.sublist_append_left _ _)
    · exact List.sublist_cons_self _ _
    · exact (List.sublist_append_right _ _).trans (List.sublist_append_left _ _)
  · rintro ⟨hto, hsubject, haddress⟩
    exact parse_render (given_plain haddress hto hsubject time body)

def botAddress : Str := "dobby@example.com".toList
def botMessageId : Str := messageId botAddress 1700000000

theorem report_parses :
    parse (snprintf payloadMax ((smtpSend "bob@example.com".toList "Report".toList "Hello.".toList
      none).format botAddress botMessageId)) =
    some (given botAddress botMessageId "bob@example.com".toList "Report".toList "Hello.".toList) :=
  (accepted_mail_parses_iff none (fun _ => true) botAddress 1700000000 _ _ _ _ rfl
    (by decide +kernel)).mpr (by decide)

/-- A subject that brings a field of its own. -/
def copiedSubject : Str := "Report\r\nBcc: eve@example.com".toList

def copiedMail : Smtp := smtpSend "bob@example.com".toList copiedSubject "Hello.".toList none

theorem subject_adds_field :
    (emailToolExecute (some none) (fun _ => true) (some "bob@example.com".toList)
        (some copiedSubject) (some "Hello.".toList)).2 = some copiedMail ∧
    (copiedMail.format botAddress botMessageId).length < payloadMax ∧
    parse (snprintf payloadMax (copiedMail.format botAddress botMessageId)) ≠
      some (given botAddress botMessageId "bob@example.com".toList copiedSubject
        "Hello.".toList) := by
  refine ⟨rfl, by decide +kernel, fun h => ?_⟩
  have hfields := parse_unbroken h
  have hsubject := hfields ⟨"Subject".toList, ' ' :: copiedSubject⟩ (by simp [given])
  exact absurd hsubject (by decide)

end Dobby.Email

import CommentTags.Text.Quoted
import CommentTags.Text.Utf8

namespace CommentTags

inductive ReadError where
  | device
  | denied (path : String)
  | encoding (error : Text.Utf8.DecodeError)
  deriving DecidableEq, Repr

/-- One undecodable byte is shown, and a longer range is given by its ends. -/
def Text.Utf8.DecodeError.message (e : Text.Utf8.DecodeError) : String :=
  let range :=
    match e.bytes with
    | [b] =>
      "byte 0x" ++ String.ofList (Text.Quoted.hex 2 b.toNat) ++ " in position " ++
        toString e.position
    | bs =>
      "bytes in position " ++ toString e.position ++ "-" ++
        toString (e.position + bs.length - 1)
  "'utf-8' codec can't decode " ++ range ++ ": " ++ e.fault.reason

def ReadError.message : ReadError → String
  | device => "[Errno 5] Input/output error"
  | denied path => "[Errno 13] Permission denied: " ++ Text.quoted path
  | encoding e => e.message

end CommentTags

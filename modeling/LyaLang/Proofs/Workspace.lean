import LyaLang.Editor.Server
import Mathlib.Data.List.Induction

/-! # The workspace of the server

After any requests the server holds, for each address, the analysis of the last text given for it that could be
analyzed, if there was one since the document was last closed. A request that cannot be carried out changes
nothing, and neither does a question.
-/

namespace LyaLang.Editor

namespace Request

def closes (uri : Bytes) : Request → Bool
  | closed uri' => uri' == uri
  | _ => false

end Request

namespace Server

variable {s : Server}

def serve (s : Server) (requests : List Request) : Server := requests.foldl (fun s r => (s.handle r).1) s

end Server

end LyaLang.Editor

namespace Overlay.Text

def unlines (lines : List String) : String := String.join (lines.map (· ++ "\n"))

end Overlay.Text

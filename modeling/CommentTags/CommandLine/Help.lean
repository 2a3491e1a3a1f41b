namespace CommentTags.CommandLine

def usageText : String :=
  "usage: tagscan [-h] [--levels LEVEL] [--tag TAG] [--no-ignore] [--no-blame]\n" ++
  "               [--json] [--verbose]\n" ++
  "               [PATH ...]\n"

def helpText : String :=
  usageText ++
  "\n" ++
  "Find comment tags (TODO, FIXME, HACK, ...) in source code.\n" ++
  "\n" ++
  "positional arguments:\n" ++
  "  PATH                  Paths to search (default: current directory).\n" ++
  "\n" ++
  "options:\n" ++
  "  -h, --help            show this help message and exit\n" ++
  "  --levels LEVEL, -l LEVEL\n" ++
  "                        Only show tags of this level: fix, improvement,\n" ++
  "                        information or custom. Repeat for several (default:\n" ++
  "                        fix and improvement).\n" ++
  "  --tag TAG, -t TAG     Only show one tag kind, e.g. todo or fixme.\n" ++
  "  --no-ignore, -i       Do not skip files ignored by git (faster).\n" ++
  "  --no-blame, -b        Do not look up when each tag last changed (faster).\n" ++
  "  --json                Write tags as a JSON array to stdout.\n" ++
  "  --verbose, -v         Log debug output to stderr.\n"

end CommentTags.CommandLine
